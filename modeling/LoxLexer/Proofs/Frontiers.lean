import LoxLexer.Lexed
import LoxLexer.Proofs.Pulls

/-!
# Frontiers

How far a source has been read is one number, that of the tokens pulled so far. Here the reports are
brought under this number as well: each has a cause, text at a certain offset, and those made while
the number goes from `p` to `q` are the ones caused between the last of the first `p` tokens and the
last of the first `q` (`reportsBetween`).

The invariant is `Cursor.StandsAt`: the cursor has read some of the pieces, up to and including the
last token pulled. That pieces begin one after the other turns this into a statement about offsets
(`Frontier`, `reportsBetween_eq`). One pull moves a frontier by one token (`next_reaches`), and
everything else a cursor can be asked for is a chain of pulls (`Pull.Reaches.bind`), so that it
moves the frontier by what it pulls and gives what the list of the tokens left would give.
-/

namespace LoxLexer

/-! ### Reports and their causes -/

/-- The report of a piece with the byte offset at which the piece begins. -/
def PlacedPiece.site? (x : PlacedPiece) : Option (Nat × Report) :=
  x.report?.map fun r ↦ (x.start.offset, r)

/-- The reports of a source, each with the byte offset at which the text that causes it begins. -/
def reportSites (source : String) : List (Nat × Report) :=
  (placedPieces source.toList).filterMap PlacedPiece.site?

/-- The offset `o` lies behind the start of the last of the first `p` tokens, if there is one. -/
def isBehind (source : String) (p o : Nat) : Bool :=
  ((lex source).tokens.take p).getLast?.all fun t ↦ t.start.offset < o

/-- The offset `o` lies before the start of the last of the first `q` tokens. -/
def isBefore (source : String) (q o : Nat) : Bool :=
  ((lex source).tokens.take q).getLast?.any fun t ↦ o < t.start.offset

/-- The reports caused by text behind the start of the last of the first `p` tokens and before the
start of the last of the first `q`. -/
def reportsBetween (source : String) (p q : Nat) : List Report :=
  ((reportSites source).filter fun s ↦ isBehind source p s.1 && isBefore source q s.1).map Prod.snd

/-! ### Frontiers -/

variable {source : String} {done ahead mid : List PlacedPiece} {p q : Nat}

/-- The pieces of a source begin one after the other. -/
theorem pairwise_start_placedPieces (text : List Char) :
    (placedPieces text).Pairwise fun x y ↦ x.start.offset < y.start.offset := by
  refine List.Pairwise.imp_of_mem ?_ (Piece.pairwise_place .start (Piece.cut text))
  intro x y hx _ hxy
  exact Nat.lt_of_lt_of_le (start_lt_stop_of_mem_placedPieces hx) hxy

/-- The pieces of a source are divided behind the last of the first `p` tokens: what lies ahead
begins behind that token, and what was reported begins before it. -/
structure Frontier (source : String) (done ahead : List PlacedPiece) (p : Nat) : Prop where
  pieces : placedPieces source.toList = done ++ ahead
  before : ∀ x ∈ done, x.report?.isSome → isBefore source p x.start.offset
  behind : ∀ x ∈ ahead, isBehind source p x.start.offset

/-- In front of a source nothing was read. -/
theorem frontier_zero (source : String) : Frontier source [] (placedPieces source.toList) 0 :=
  ⟨rfl, by simp, fun _ _ ↦ rfl⟩

/-- No offset is both before and behind the last token pulled. -/
theorem not_isBefore_of_isBehind {o : Nat} (h : isBehind source p o) : ¬ isBefore source p o := by
  rw [isBehind] at h
  rw [isBefore]
  rcases ht : ((lex source).tokens.take p).getLast? with - | t
  · exact Bool.false_ne_true
  · rw [ht, Option.all_some, decide_eq_true_eq] at h
    rw [Option.any_some, decide_eq_true_eq]
    omega

/-- The last of the first `p + 1` tokens is the one with number `p`. -/
theorem getLast?_take_succ {T : List Token} {t : Token} (h : T[p]? = some t) :
    (T.take (p + 1)).getLast? = some t := by
  rw [List.take_add_one, h]
  exact List.getLast?_concat

theorem isBehind_succ {t : Token} {o : Nat} (ht : (lex source).tokens[p]? = some t)
    (ho : t.start.offset < o) : isBehind source (p + 1) o := by
  rw [isBehind, getLast?_take_succ ht]
  simpa using ho

theorem isBefore_succ {t : Token} {o : Nat} (ht : (lex source).tokens[p]? = some t)
    (ho : o < t.start.offset) : isBefore source (p + 1) o := by
  rw [isBefore, getLast?_take_succ ht]
  simpa using ho

/-- Behind a piece that is token number `p` is the frontier of `p + 1` tokens. -/
theorem frontier_succ {x : PlacedPiece} {t : Token}
    (hpieces : placedPieces source.toList = done ++ x :: ahead) (hx : x.token? = some t)
    (ht : (lex source).tokens[p]? = some t) : Frontier source (done ++ [x]) ahead (p + 1) := by
  have hsorted := pairwise_start_placedPieces source.toList
  rw [hpieces, List.pairwise_append, List.pairwise_cons] at hsorted
  obtain ⟨-, ⟨hxahead, -⟩, hbeforex⟩ := hsorted
  have hstart : t.start = x.start := (PlacedPiece.eq_of_token? hx).2.2
  refine ⟨by rw [hpieces]; simp, fun y hy hreport ↦ ?_, fun y hy ↦ ?_⟩
  · rcases List.mem_append.1 hy with hy | hy
    · exact isBefore_succ ht (hstart ▸ hbeforex y hy x List.mem_cons_self)
    · -- a token makes no report
      rw [List.mem_singleton.1 hy] at hreport
      exact absurd hreport (by simp [PlacedPiece.report?_eq_none_of_token? hx])
  · exact isBehind_succ ht (hstart ▸ hxahead y hy)

/-- A frontier moves over the pieces up to the next token. -/
theorem Frontier.token {x : PlacedPiece} {t : Token}
    (h : Frontier source done (mid ++ x :: ahead) p) (hx : x.token? = some t)
    (ht : (lex source).tokens[p]? = some t) :
    Frontier source (done ++ (mid ++ [x])) ahead (p + 1) := by
  have hpieces : placedPieces source.toList = (done ++ mid) ++ x :: ahead := by
    rw [h.pieces, List.append_assoc]
  rw [← List.append_assoc]
  exact frontier_succ hpieces hx ht

/-- All pieces lie before the end of the source. -/
theorem frontier_end {t : Token} (ht : (lex source).tokens[p]? = some t)
    (hend : t.start = Position.start.after source.toList) :
    Frontier source (placedPieces source.toList) [] (p + 1) := by
  refine ⟨(List.append_nil _).symm, fun x hx _ ↦ isBefore_succ ht ?_, by simp⟩
  rw [hend]
  exact Nat.lt_of_lt_of_le (start_lt_stop_of_mem_placedPieces hx) (stop_le_of_mem_placedPieces hx)

/-- The end of the source is the last token. -/
theorem frontier_length (source : String) :
    Frontier source (placedPieces source.toList) [] (lex source).tokens.length := by
  obtain ⟨tokens, htokens⟩ : ∃ tokens, (lex source).tokens =
      tokens ++ [Token.endOfFile (Position.start.after source.toList)] := ⟨_, tokens_lex source⟩
  have hlast : (lex source).tokens[tokens.length]? =
      some (Token.endOfFile (Position.start.after source.toList)) := by
    rw [htokens, List.getElem?_append_right le_rfl, Nat.sub_self]
    rfl
  rw [htokens, List.length_append]
  exact frontier_end hlast rfl

/-- The sites of reports are those of all reports, in order. -/
theorem map_snd_sites (xs : List PlacedPiece) :
    (xs.filterMap PlacedPiece.site?).map Prod.snd = xs.filterMap PlacedPiece.report? := by
  rw [List.map_filterMap]
  refine congrArg (List.filterMap · xs) (funext fun x ↦ ?_)
  show (x.report?.map fun r ↦ (x.start.offset, r)).map Prod.snd = x.report?
  rw [Option.map_map]
  exact Option.map_id'

/-- Every site is the start of a piece that makes a report. -/
theorem mem_sites {xs : List PlacedPiece} {s : Nat × Report}
    (h : s ∈ xs.filterMap PlacedPiece.site?) :
    ∃ x ∈ xs, x.report?.isSome ∧ s.1 = x.start.offset := by
  obtain ⟨x, hx, hsite⟩ := List.mem_filterMap.1 h
  obtain ⟨r, hr, rfl⟩ := Option.map_eq_some_iff.1 hsite
  exact ⟨x, hx, by rw [hr]; rfl, rfl⟩

/-- **Between two frontiers** lie exactly the reports between their tokens. -/
theorem reportsBetween_eq (h : Frontier source done (mid ++ ahead) p)
    (h' : Frontier source (done ++ mid) ahead q) :
    reportsBetween source p q = mid.filterMap PlacedPiece.report? := by
  -- what was read before lies in front of the first frontier, what is ahead behind the second
  have hdone : (done.filterMap PlacedPiece.site?).filter
      (fun s ↦ isBehind source p s.1 && isBefore source q s.1) = [] := by
    refine List.filter_eq_nil_iff.2 fun s hs ↦ ?_
    obtain ⟨x, hx, hreport, hoffset⟩ := mem_sites hs
    rw [hoffset, Bool.and_eq_true, not_and_or]
    exact .inl fun hbehind ↦ not_isBefore_of_isBehind hbehind (h.before x hx hreport)
  have hmid : (mid.filterMap PlacedPiece.site?).filter
      (fun s ↦ isBehind source p s.1 && isBefore source q s.1) =
        mid.filterMap PlacedPiece.site? := by
    refine List.filter_eq_self.2 fun s hs ↦ ?_
    obtain ⟨x, hx, hreport, hoffset⟩ := mem_sites hs
    rw [hoffset, Bool.and_eq_true]
    exact ⟨h.behind x (List.mem_append_left _ hx),
      h'.before x (List.mem_append_right _ hx) hreport⟩
  have hahead : (ahead.filterMap PlacedPiece.site?).filter
      (fun s ↦ isBehind source p s.1 && isBefore source q s.1) = [] := by
    refine List.filter_eq_nil_iff.2 fun s hs ↦ ?_
    obtain ⟨x, hx, -, hoffset⟩ := mem_sites hs
    rw [hoffset, Bool.and_eq_true, not_and_or]
    exact .inr (not_isBefore_of_isBehind (h'.behind x hx))
  rw [reportsBetween, reportSites, h.pieces, List.filterMap_append, List.filterMap_append,
    List.filter_append, List.filter_append, hdone, hmid, hahead, List.append_nil, List.nil_append,
    map_snd_sites]

/-- From the start to the last token lie all reports. -/
theorem reportsBetween_length (source : String) :
    reportsBetween source 0 (lex source).tokens.length = (lex source).reports := by
  have hzero : Frontier source [] (placedPieces source.toList ++ []) 0 :=
    (List.append_nil _).symm ▸ frontier_zero source
  have hlength : Frontier source ([] ++ placedPieces source.toList) []
      (lex source).tokens.length := frontier_length source
  rw [reports_lex]
  exact reportsBetween_eq hzero hlength

/-! ### Cursors at a frontier -/

/-- A cursor that has pulled `p` tokens of a source and read the pieces `done` for them. -/
structure Cursor.StandsAt (c : Cursor) (source : String) (done : List PlacedPiece) (p : Nat) :
    Prop where
  frontier : Frontier source done c.pending p
  left : (lex source).tokens.drop p = c.tokensLeft
  bound : p ≤ (lex source).tokens.length
  endPosition : c.endPosition = Position.start.after source.toList
  finished : c.finished → c.rest = []

/-- A new cursor stands in front of its source. -/
theorem standsAt_ofSource (source : String) : (Cursor.ofSource source).StandsAt source [] 0 where
  frontier := frontier_zero source
  left := tokens_lex source
  bound := Nat.zero_le _
  endPosition := rfl
  finished h := absurd h (Bool.false_ne_true)

/-- Where a cursor stands has nothing to do with who listens. -/
theorem Cursor.StandsAt.telling {c : Cursor} (h : c.StandsAt source done p)
    (v? : Option Verbosity) : (c.telling v?).StandsAt source done p :=
  ⟨h.frontier, h.left, h.bound, h.endPosition, h.finished⟩

/-- Between two places of a cursor lie the reports of the pieces between them. -/
theorem reportsBetween_of_standsAt {c d : Cursor} (hc : c.StandsAt source done p)
    (hd : d.StandsAt source (done ++ mid) q) :
    reportsBetween source p q = mid.filterMap PlacedPiece.report? := by
  have hpending : c.pending = mid ++ d.pending := by
    have hpieces := hc.frontier.pieces.symm.trans hd.frontier.pieces
    rw [List.append_assoc] at hpieces
    exact List.append_cancel_left hpieces
  exact reportsBetween_eq (hpending ▸ hc.frontier) hd.frontier

/-- A pull that leaves the cursor at `q` tokens, with the reports of what it read. -/
def Pull.Reaches {α : Type} (P : Pull α) (source : String) (done : List PlacedPiece) (q : Nat) :
    Prop :=
  ∃ mid, P.reports = mid.filterMap PlacedPiece.report? ∧
    P.cursor.StandsAt source (done ++ mid) q

/-- A cursor that stays makes no reports. -/
theorem Cursor.StandsAt.reaches {α : Type} {c : Cursor} (h : c.StandsAt source done p) (a : α) :
    Pull.Reaches ⟨a, [], [], c⟩ source done p :=
  ⟨[], rfl, by rwa [List.append_nil]⟩

/-- Pulling on moves the frontier on. -/
theorem Pull.Reaches.bind {α β : Type} {P : Pull α} {f : α → Cursor → Pull β}
    (hP : P.Reaches source done p)
    (hf : ∀ done, P.cursor.StandsAt source done p → (f P.value P.cursor).Reaches source done q) :
    (P.bind f).Reaches source done q := by
  obtain ⟨mid, hreports, hcursor⟩ := hP
  obtain ⟨mid', hreports', hcursor'⟩ := hf _ hcursor
  refine ⟨mid ++ mid', ?_, List.append_assoc .. ▸ hcursor'⟩
  show P.reports ++ (f P.value P.cursor).reports = (mid ++ mid').filterMap PlacedPiece.report?
  rw [List.filterMap_append, hreports, hreports']

theorem Pull.Reaches.map {α β : Type} {P : Pull α} (hP : P.Reaches source done q) (f : α → β) :
    (P.map f).Reaches source done q := hP

theorem drop_succ_of_drop {T left : List Token} {t : Token} (h : T.drop p = t :: left) :
    T[p]? = some t ∧ T.drop (p + 1) = left ∧ p + 1 ≤ T.length := by
  have hlength := congrArg List.length h
  rw [List.length_drop, List.length_cons] at hlength
  refine ⟨by rw [← List.head?_drop, h]; rfl, ?_, by omega⟩
  rw [← List.tail_drop, h]
  rfl

/-- At the end of the list a pull yields nothing and the frontier stays. -/
theorem next_reaches_of_nil {c : Cursor} (h : c.StandsAt source done p)
    (hleft : (lex source).tokens.drop p = []) :
    c.next.value = none ∧ c.next.Reaches source done p := by
  have hfinished : c.finished := by
    by_contra hopen
    have htokens := h.left.symm.trans hleft
    rw [Cursor.tokensLeft, if_neg hopen] at htokens
    exact List.cons_ne_nil _ _ (List.append_eq_nil_iff.1 htokens).2
  rw [Cursor.next_of_end (Cursor.pass?_eq_none_iff.2 (h.finished hfinished)), if_pos hfinished]
  exact ⟨rfl, h.reaches none⟩

/-- **One pull** yields the next token of the plain list and moves the frontier behind it. -/
theorem next_reaches_of_cons {c : Cursor} {t : Token} {left : List Token}
    (h : c.StandsAt source done p) (hleft : (lex source).tokens.drop p = t :: left) :
    c.next.value = some t ∧ c.next.Reaches source done (p + 1) := by
  obtain ⟨ht, hdrop, hlength⟩ := drop_succ_of_drop hleft
  have htokens := h.left.symm.trans hleft
  -- a cursor that gave out the end owes no token
  have hfinished : c.finished = false := by
    by_contra hfin
    rw [Bool.not_eq_false] at hfin
    rw [Cursor.tokensLeft_of_finished (h.finished hfin) hfin] at htokens
    exact List.cons_ne_nil _ _ htokens.symm
  have hpull := Cursor.pulls_next hfinished
  generalize c.next = P at hpull
  cases hpull with
  | @token skipped x t' _ d hpending hskipped htoken hd hend =>
    rw [Cursor.tokensLeft_eq_cons hpending hskipped htoken (hd.trans hfinished.symm) hend]
      at htokens
    obtain ⟨rfl, hleft'⟩ := List.cons.inj htokens
    refine ⟨rfl, skipped ++ [x], ?_, ?_⟩
    · rw [List.filterMap_append, List.filterMap_cons_none
        (PlacedPiece.report?_eq_none_of_token? htoken), List.filterMap_nil, List.append_nil]
    · exact ⟨(hpending ▸ h.frontier).token htoken ht, hdrop.trans hleft'.symm, hlength,
        hend.trans h.endPosition, fun hfin ↦ absurd hfin (by simp [hd])⟩
  | @finish _ d hskipped hrest hd hend =>
    rw [Cursor.tokensLeft_eq_endOfFile hskipped hfinished] at htokens
    obtain ⟨rfl, hleft'⟩ := List.cons.inj htokens
    have hnone := Cursor.tokensLeft_of_finished hrest hd
    refine ⟨rfl, c.pending, rfl, ?_⟩
    have hfrontier : Frontier source (done ++ c.pending) d.pending (p + 1) := by
      rw [Cursor.pending_of_end hrest, ← h.frontier.pieces]
      exact frontier_end ht h.endPosition
    exact ⟨hfrontier, hdrop.trans (hleft'.symm.trans hnone.symm), hlength,
      hend.trans h.endPosition, fun _ ↦ hrest⟩

/-! ### Chains of pulls -/

/-- A pull yields the first of the tokens left, if there is one. -/
theorem next_reaches {c : Cursor} (h : c.StandsAt source done p) :
    c.next.value = ((lex source).tokens.drop p).head? ∧
      c.next.Reaches source done (p + min 1 ((lex source).tokens.drop p).length) := by
  cases hleft : (lex source).tokens.drop p with
  | nil => exact next_reaches_of_nil h hleft
  | cons t left =>
    rw [List.length_cons, Nat.min_eq_left (Nat.succ_le_succ (Nat.zero_le _))]
    exact next_reaches_of_cons h hleft

/-- So many pulls yield as many of the tokens left, as far as there are. -/
theorem take_reaches (n : Nat) {c : Cursor} (h : c.StandsAt source done p) :
    (c.take n).value = ((lex source).tokens.drop p).take n ∧
      (c.take n).Reaches source done (p + min n ((lex source).tokens.drop p).length) := by
  induction n generalizing c done p with
  | zero =>
    rw [Nat.zero_min, Nat.add_zero]
    exact ⟨rfl, h.reaches []⟩
  | succ n ih =>
    cases hleft : (lex source).tokens.drop p with
    | nil =>
      obtain ⟨hvalue, hnext⟩ := next_reaches_of_nil h hleft
      rw [Cursor.take_succ_of_none hvalue]
      exact ⟨rfl, hnext.bind fun _ hd ↦ hd.reaches []⟩
    | cons t left =>
      obtain ⟨hvalue, hnext⟩ := next_reaches_of_cons h hleft
      obtain ⟨mid, -, hd⟩ := id hnext
      -- the tokens left behind `t` are those left at the next position
      obtain ⟨-, rfl, -⟩ := drop_succ_of_drop hleft
      have hq : p + min (n + 1) (((lex source).tokens.drop (p + 1)).length + 1) =
          p + 1 + min n ((lex source).tokens.drop (p + 1)).length := by omega
      rw [Cursor.take_succ_of_some hvalue, List.take_succ_cons, ← (ih hd).1, List.length_cons, hq]
      exact ⟨rfl, hnext.bind fun _ hd ↦ (ih hd).2.map _⟩

/-- A drain yields all tokens left. -/
theorem drain_reaches {c : Cursor} (h : c.StandsAt source done p) :
    c.drain.value = (lex source).tokens.drop p ∧
      c.drain.Reaches source done (p + ((lex source).tokens.drop p).length) := by
  have hbound : ((lex source).tokens.drop p).length ≤ c.bound :=
    h.left ▸ c.length_tokensLeft_le
  obtain ⟨hvalue, hreaches⟩ := take_reaches c.bound h
  rw [List.take_of_length_le hbound] at hvalue
  rw [Nat.min_eq_right hbound] at hreaches
  exact ⟨hvalue, hreaches⟩

/-- **Draining a cursor** in front of a source is lexing the source, whoever listens. -/
theorem drain_ofSource (source : String) (v? : Option Verbosity) :
    ((Cursor.ofSource source).telling v?).drain.value = (lex source).tokens ∧
      ((Cursor.ofSource source).telling v?).drain.reports = (lex source).reports := by
  have hstart := (standsAt_ofSource source).telling v?
  obtain ⟨hvalue, mid, hreports, hend⟩ := drain_reaches hstart
  rw [List.drop_zero, Nat.zero_add] at hend
  refine ⟨hvalue, ?_⟩
  rw [hreports, ← reportsBetween_of_standsAt hstart hend, reportsBetween_length]

/-- The token behind others is found by its number among those left. -/
theorem nth_reaches (n : Nat) {c : Cursor} (h : c.StandsAt source done p) :
    (c.nth n).value = ((lex source).tokens.drop p)[n]? ∧
      (c.nth n).Reaches source done (p + min (n + 1) ((lex source).tokens.drop p).length) := by
  obtain ⟨-, htake⟩ := take_reaches n h
  obtain ⟨mid, -, hd⟩ := id htake
  -- behind the tokens passed over, be they fewer than `n`, the list goes on as without them
  have hdrop : (lex source).tokens.drop (p + min n ((lex source).tokens.drop p).length) =
      ((lex source).tokens.drop p).drop n := by
    rw [← List.drop_drop]
    rcases Nat.le_total n ((lex source).tokens.drop p).length with hn | hn
    · rw [Nat.min_eq_left hn]
    · rw [Nat.min_eq_right hn, List.drop_length, List.drop_eq_nil_of_le hn]
  constructor
  · refine (next_reaches hd).1.trans ?_
    rw [hdrop, List.head?_drop]
  · refine htake.bind fun _ hd ↦ ?_
    have hnext := (next_reaches hd).2
    have hlength : (((lex source).tokens.drop p).drop n).length =
        ((lex source).tokens.drop p).length - n := List.length_drop
    rw [hdrop, hlength] at hnext
    have hq : p + min n ((lex source).tokens.drop p).length +
        min 1 (((lex source).tokens.drop p).length - n) =
          p + min (n + 1) ((lex source).tokens.drop p).length := by omega
    exact hq ▸ hnext

/-- A search ends at the first token of the kind. -/
theorem min_findIdx_cons (kind : Token.Kind) (t : Token) (left : List Token) :
    min ((t :: left).findIdx (fun t ↦ t.kind = kind) + 1) (t :: left).length =
      if t.kind = kind then 1
      else min (left.findIdx (fun t ↦ t.kind = kind) + 1) left.length + 1 := by
  rw [List.findIdx_cons, List.length_cons]
  by_cases hkind : t.kind = kind
  · simp [hkind]
  · simp only [hkind, decide_false, cond_false, if_false]
    omega

/-- A search finds the first of its kind among the tokens left, and drops those in front of it. -/
theorem seekWithin_reaches (n : Nat) (kind : Token.Kind) {c : Cursor}
    (h : c.StandsAt source done p) (hn : ((lex source).tokens.drop p).length ≤ n) :
    (c.seekWithin n kind).value = ((lex source).tokens.drop p).find? (fun t ↦ t.kind = kind) ∧
      (c.seekWithin n kind).Reaches source done
        (p + min (((lex source).tokens.drop p).findIdx (fun t ↦ t.kind = kind) + 1)
          ((lex source).tokens.drop p).length) := by
  induction n generalizing c done p with
  | zero =>
    rw [List.eq_nil_of_length_eq_zero (Nat.le_zero.1 hn)]
    exact ⟨rfl, h.reaches none⟩
  | succ n ih =>
    cases hleft : (lex source).tokens.drop p with
    | nil =>
      obtain ⟨hvalue, hnext⟩ := next_reaches_of_nil h hleft
      rw [Cursor.seekWithin_succ_of_none hvalue]
      exact ⟨rfl, hnext.bind fun _ hd ↦ hd.reaches none⟩
    | cons t left =>
      obtain ⟨hvalue, hnext⟩ := next_reaches_of_cons h hleft
      rw [min_findIdx_cons]
      by_cases hkind : t.kind = kind
      · rw [Cursor.seekWithin_succ_of_hit hvalue hkind, if_pos hkind,
          List.find?_cons_of_pos (by simpa using hkind)]
        exact ⟨rfl, hnext.bind fun _ hd ↦ hd.reaches (some t)⟩
      · obtain ⟨mid, -, hd⟩ := id hnext
        rw [hleft, List.length_cons] at hn
        obtain ⟨-, rfl, -⟩ := drop_succ_of_drop hleft
        have hn' := Nat.le_of_succ_le_succ hn
        rw [Cursor.seekWithin_succ_of_miss hvalue hkind, if_neg hkind,
          List.find?_cons_of_neg (by simpa using hkind), ← (ih hd hn').1, ← Nat.add_assoc,
          Nat.add_right_comm]
        exact ⟨rfl, hnext.bind fun _ hd ↦ (ih hd hn').2⟩

end LoxLexer
