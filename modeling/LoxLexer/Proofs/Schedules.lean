import LoxLexer.Cursor.Session
import LoxLexer.Proofs.Frontiers

/-!
# Schedules of requests

However the tokens of a source are asked for, a session answers as the plain token list would, and
makes each report in the step that reads its cause. The plan of a schedule (`plannedReplies`) says
this without a cursor: the only state is the number of tokens pulled so far.

A request moves the frontier of the cursor by the tokens it pulls (`ask_reaches`), and a schedule is
an induction over its requests (`askAll_reaches`).
-/

namespace LoxLexer

/-! ### The plan of a schedule -/

namespace Request

/-- The answer that the plain list of the tokens left gives. -/
def answerFrom (left : List Token) : Request → Answer
  | next => .token left.head?
  | last => .token left.getLast?
  | count => .count left.length
  | nth n => .token left[n]?
  | take n => .tokens (left.take n)
  | seek kind => .token (left.find? fun t ↦ t.kind = kind)
  | drain => .tokens left

/-- How many of the tokens left are yielded or dropped. -/
def pulled (left : List Token) : Request → Nat
  | next => min 1 left.length
  | last | count | drain => left.length
  | nth n => min (n + 1) left.length
  | take n => min n left.length
  | seek kind => min (left.findIdx (fun t ↦ t.kind = kind) + 1) left.length

/-- The number of tokens pulled after a request, where `p` were pulled before it. -/
def positionAfter (source : String) (p : Nat) (r : Request) : Nat :=
  p + r.pulled ((lex source).tokens.drop p)

end Request

/-- The answers to a schedule and the reports made for them, where `p` tokens were pulled before. A
drain closes the session. -/
def plannedReplies (source : String) : Nat → List Request → List (Answer × List Report)
  | _, [] => []
  | p, r :: more =>
    let q := r.positionAfter source p
    (r.answerFrom ((lex source).tokens.drop p), reportsBetween source p q) ::
      if r = .drain then more.map fun _ ↦ (.closed, []) else plannedReplies source q more

/-- The number of tokens pulled after a schedule. -/
def positionAfterAll (source : String) (p : Nat) (requests : List Request) : Nat :=
  requests.foldl (Request.positionAfter source) p

/-! ### Sessions -/

variable {source : String} {done : List PlacedPiece} {p : Nat}

/-- **One request** is answered from the plain list, and moves the frontier by what it pulls. A
drain closes the session, all other requests leave it open at the new frontier. -/
theorem ask_reaches {c : Cursor} (h : c.StandsAt source done p) (r : Request) :
    ∃ mid d, ((Session.mk (some c)).ask r).1.answer =
        r.answerFrom ((lex source).tokens.drop p) ∧
      ((Session.mk (some c)).ask r).1.reports = mid.filterMap PlacedPiece.report? ∧
      d.StandsAt source (done ++ mid) (r.positionAfter source p) ∧
      ((Session.mk (some c)).ask r).2 = ⟨if r = .drain then none else some d⟩ := by
  cases r with
  | next =>
    obtain ⟨hvalue, mid, hreports, hcursor⟩ := next_reaches h
    exact ⟨mid, _, congrArg Answer.token hvalue, hreports, hcursor, rfl⟩
  | last =>
    obtain ⟨hvalue, mid, hreports, hcursor⟩ := drain_reaches h
    exact ⟨mid, _, congrArg (fun ts : List Token ↦ Answer.token ts.getLast?) hvalue, hreports,
      hcursor, rfl⟩
  | count =>
    obtain ⟨hvalue, mid, hreports, hcursor⟩ := drain_reaches h
    exact ⟨mid, _, congrArg (fun ts : List Token ↦ Answer.count ts.length) hvalue, hreports,
      hcursor, rfl⟩
  | nth n =>
    obtain ⟨hvalue, mid, hreports, hcursor⟩ := nth_reaches n h
    exact ⟨mid, _, congrArg Answer.token hvalue, hreports, hcursor, rfl⟩
  | take n =>
    obtain ⟨hvalue, mid, hreports, hcursor⟩ := take_reaches n h
    exact ⟨mid, _, congrArg Answer.tokens hvalue, hreports, hcursor, rfl⟩
  | seek kind =>
    have hbound : ((lex source).tokens.drop p).length ≤ c.bound := h.left ▸ c.length_tokensLeft_le
    obtain ⟨hvalue, mid, hreports, hcursor⟩ := seekWithin_reaches c.bound kind h hbound
    exact ⟨mid, _, congrArg Answer.token hvalue, hreports, hcursor, rfl⟩
  | drain =>
    obtain ⟨hvalue, mid, hreports, hcursor⟩ := drain_reaches h
    exact ⟨mid, _, congrArg Answer.tokens hvalue, hreports, hcursor, rfl⟩

theorem askAll_cons (s : Session) (r : Request) (more : List Request) :
    s.askAll (r :: more) = (s.ask r).1 :: (s.ask r).2.askAll more := rfl

theorem positionAfterAll_cons (source : String) (p : Nat) (r : Request) (more : List Request) :
    positionAfterAll source p (r :: more) =
      positionAfterAll source (r.positionAfter source p) more := rfl

/-- A session that was closed answers every request with that. -/
theorem askAll_closed (requests : List Request) :
    (Session.mk none).askAll requests = requests.map fun _ ↦ ⟨.closed, [], []⟩ := by
  induction requests with
  | nil => rfl
  | cons r more ih =>
    rw [askAll_cons, List.map_cons, ← ih]
    rfl

/-- Behind the last token nothing more is pulled. -/
theorem positionAfterAll_of_length_le (hp : (lex source).tokens.length ≤ p)
    (requests : List Request) : positionAfterAll source p requests = p := by
  induction requests with
  | nil => rfl
  | cons r more ih =>
    have hr : r.positionAfter source p = p := by
      rw [Request.positionAfter, List.drop_eq_nil_of_le hp]
      show p + r.pulled [] = p
      cases r <;> simp [Request.pulled]
    rw [positionAfterAll_cons, hr, ih]

/-- **A schedule**, by induction on its requests: the answers and the reports of every step are the
planned ones, and together the steps report what lies before the last frontier. -/
theorem askAll_reaches {c : Cursor} (h : c.StandsAt source done p) (requests : List Request) :
    ((Session.mk (some c)).askAll requests).map (fun r ↦ (r.answer, r.reports)) =
        plannedReplies source p requests ∧
      ∃ mid ahead, ((Session.mk (some c)).askAll requests).flatMap Reply.reports =
          mid.filterMap PlacedPiece.report? ∧
        Frontier source (done ++ mid) ahead (positionAfterAll source p requests) := by
  induction requests generalizing c done p with
  | nil => exact ⟨rfl, [], c.pending, rfl, by rw [List.append_nil]; exact h.frontier⟩
  | cons r more ih =>
    obtain ⟨mid, d, hanswer, hreports, hd, hnext⟩ := ask_reaches h r
    have hbetween := reportsBetween_of_standsAt h hd
    rw [askAll_cons, List.map_cons, List.flatMap_cons, hanswer, hreports, hnext, plannedReplies,
      hbetween, positionAfterAll_cons]
    by_cases hdrain : r = .drain
    · -- the session is closed, and the drain has read everything
      subst hdrain
      have hlength : (lex source).tokens.length ≤ Request.drain.positionAfter source p := by
        have hleft : ((lex source).tokens.drop p).length = (lex source).tokens.length - p :=
          List.length_drop
        rw [Request.positionAfter, Request.pulled]
        omega
      rw [if_pos rfl, if_pos rfl, askAll_closed, List.map_map,
        positionAfterAll_of_length_le hlength]
      refine ⟨rfl, mid, d.pending, ?_, hd.frontier⟩
      rw [List.flatMap_map, List.flatMap_eq_nil_iff.2 fun _ _ ↦ rfl, List.append_nil]
    · obtain ⟨hreplies, mid', ahead, hmore, hfrontier⟩ := ih hd
      rw [if_neg hdrain, if_neg hdrain, hreplies, hmore, ← List.filterMap_append]
      exact ⟨rfl, mid ++ mid', ahead, rfl, List.append_assoc .. ▸ hfrontier⟩

/-- **Every schedule sees the same tokens and reports.** Each step of a session is answered as the
plain list of tokens would from the position reached, and makes the reports whose causes lie between
the positions before and after it. Up to any step these are the first reports of the source, and
all of them once every token is pulled. Nobody has to listen for that, and whoever listens changes
nothing. -/
theorem askAll_eq_plannedReplies (source : String) (v? : Option Verbosity)
    (requests : List Request) :
    ((Session.ofSource source v?).askAll requests).map (fun r ↦ (r.answer, r.reports)) =
        plannedReplies source 0 requests ∧
      (reportSites source).map Prod.snd = (lex source).reports ∧
      ((Session.ofSource source v?).askAll requests).flatMap Reply.reports =
        reportsBetween source 0 (positionAfterAll source 0 requests) ∧
      reportsBetween source 0 (positionAfterAll source 0 requests) <+: (lex source).reports ∧
      reportsBetween source 0 (lex source).tokens.length = (lex source).reports := by
  obtain ⟨hreplies, mid, ahead, hreports, hfrontier⟩ :=
    askAll_reaches ((standsAt_ofSource source).telling v?) requests
  have hpieces : placedPieces source.toList = mid ++ ahead := hfrontier.pieces
  have hbetween : reportsBetween source 0 (positionAfterAll source 0 requests) =
      mid.filterMap PlacedPiece.report? :=
    reportsBetween_eq (hpieces ▸ frontier_zero source) hfrontier
  refine ⟨hreplies, ?_, hreports.trans hbetween.symm, ?_, reportsBetween_length source⟩
  · rw [reportSites, map_snd_sites, reports_lex]
  · rw [hbetween, reports_lex, hpieces, List.filterMap_append]
    exact List.prefix_append _ _

end LoxLexer
