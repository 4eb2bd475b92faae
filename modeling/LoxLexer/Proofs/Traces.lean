import LoxLexer.Proofs.Schedules

/-!
# What a trace accounts for

A cursor tells of a report where it makes the report, and of a scan before it begins and when it is
complete. How much of this is told is up to the listener, and the count of reports that comes with
the end of a scan runs over the whole life of the cursor, while the reports themselves are handed
out request by request. Nobody keeps the records and the reports side by side. Here they are brought
together: what is told in a request is what is due for its reply and for the reports in all replies
up to it (`Reply.dueTrace`), as far as the listener wants to hear of it.

A pull keeps account of its reports (`Pull.KeepsAccount`), be it of one token (`next_keepsAccount`,
by induction on the text left) or a chain of such. A request is answered from one pull, so an
account holds from request to request (`ask_dueTrace`), and a schedule is an induction over its
requests (`askAll_dueTrace_from`). Two listeners to the same schedule are due the same, and so they
hear the same as far as both want to hear of it (`askAll_heard`).
-/

namespace LoxLexer

/-! ### Accounts of pulls -/

/-- A pull from `c` tells the listener there of the reports that it makes, one by one, and of
nothing else. It adds them to the count, and leaves the listener and the length of the source as
they are. -/
structure Pull.KeepsAccount {α : Type} (p : Pull α) (c : Cursor) : Prop where
  trace : p.trace = toldOf c.verbosity? p.reports
  reported : p.cursor.reported = c.reported + p.reports.length
  sourceBytes : p.cursor.sourceBytes = c.sourceBytes
  verbosity : p.cursor.verbosity? = c.verbosity?

namespace Pull.KeepsAccount

variable {α β : Type} {p : Pull α} {c : Cursor}

/-- Where nothing is pulled there is nothing to account for. -/
theorem of_stay (a : α) (c : Cursor) : (Pull.mk a [] [] c).KeepsAccount c := ⟨rfl, rfl, rfl, rfl⟩

theorem map (h : p.KeepsAccount c) (f : α → β) : (p.map f).KeepsAccount c :=
  ⟨h.trace, h.reported, h.sourceBytes, h.verbosity⟩

/-- The account of a chain is that of its links. -/
theorem bind {f : α → Cursor → Pull β} (hp : p.KeepsAccount c)
    (hf : (f p.value p.cursor).KeepsAccount p.cursor) : (p.bind f).KeepsAccount c := by
  refine ⟨?_, ?_, hf.sourceBytes.trans hp.sourceBytes, hf.verbosity.trans hp.verbosity⟩
  · show p.trace ++ (f p.value p.cursor).trace = toldOf c.verbosity? (p.reports ++ _)
    rw [hf.trace, hp.trace, hp.verbosity, toldOf_append]
  · show (f p.value p.cursor).cursor.reported = _ + (p.reports ++ _).length
    rw [hf.reported, hp.reported, List.length_append, Nat.add_assoc]

end Pull.KeepsAccount

namespace Cursor

variable {c d : Cursor}

theorem sourceBytes_eq_offset (c : Cursor) : c.sourceBytes = c.endPosition.offset :=
  (Position.offset_after c.position c.rest).symm

/-- In front of a source all of its bytes are still to be read. -/
theorem sourceBytes_ofSource (source : String) :
    (ofSource source).sourceBytes = source.utf8ByteSize := by
  show 0 + byteLength source.toList = source.utf8ByteSize
  rw [Nat.zero_add, ← utf8ByteSize_ofList, String.ofList_toList]

/-- One pass as a pull of what it read, if its report is told of behind it. -/
theorem pass?_keepsAccount {e : Option Event} (h : c.pass? = some (e, d)) :
    (Pull.mk e (e.bind Event.report?).toList
      (toldOf d.verbosity? (e.bind Event.report?).toList) d).KeepsAccount c := by
  have hcounts : d.reported = c.reported + (e.bind Event.report?).toList.length ∧
      d.verbosity? = c.verbosity? := by
    rw [pass?] at h
    split at h
    · contradiction
    · cases h
      exact ⟨rfl, rfl⟩
  obtain ⟨hreported, hverbosity⟩ := hcounts
  refine ⟨congrArg (toldOf · _) hverbosity, hreported, ?_, hverbosity⟩
  obtain ⟨-, -, -, -, hend⟩ := pending_of_pass? h
  show d.sourceBytes = c.sourceBytes
  rw [sourceBytes_eq_offset, sourceBytes_eq_offset, hend]

/-- **One pull** keeps account. By induction on the text left: it is a chain of passes. -/
theorem next_keepsAccount (c : Cursor) : c.next.KeepsAccount c := by
  fun_induction next c with
  | case1 c hpass hfinished => exact .of_stay none c
  | case2 c hpass hfinished => exact ⟨rfl, rfl, rfl, rfl⟩
  | case3 c t d hpass => exact (pass?_keepsAccount hpass).map fun _ ↦ some t
  | case4 c r d hpass p ih =>
    -- the record is told, and the report made, between the pass and what is pulled behind it
    have hchain := (pass?_keepsAccount hpass).bind (f := fun _ d ↦ d.next) ih
    have htold : toldOf d.verbosity? [r] = d.tell r.record := toldOf_singleton _ r
    rw [← htold]
    exact hchain
  | case5 c d hpass ih => exact (pass?_keepsAccount hpass).bind (f := fun _ d ↦ d.next) ih

/-! ### Chains of pulls -/

/-- So does a number of pulls. -/
theorem take_keepsAccount (n : Nat) (c : Cursor) : (c.take n).KeepsAccount c := by
  induction n generalizing c with
  | zero => exact .of_stay [] c
  | succ n ih =>
    refine (next_keepsAccount c).bind ?_
    split
    · exact .of_stay [] _
    · next t _ => exact (ih _).map (t :: ·)

theorem drain_keepsAccount (c : Cursor) : c.drain.KeepsAccount c := take_keepsAccount c.bound c

theorem nth_keepsAccount (n : Nat) (c : Cursor) : (c.nth n).KeepsAccount c :=
  (take_keepsAccount n c).bind (next_keepsAccount _)

/-- So does a search. -/
theorem seekWithin_keepsAccount (n : Nat) (kind : Token.Kind) (c : Cursor) :
    (c.seekWithin n kind).KeepsAccount c := by
  induction n generalizing c with
  | zero => exact .of_stay none c
  | succ n ih =>
    refine (next_keepsAccount c).bind ?_
    split
    · exact .of_stay none _
    · split
      · exact .of_stay _ _
      · exact ih _

/-- Around the reports of a scan it is told how long the source is, how many tokens the scan gave,
and how many reports were counted until then. -/
theorem trace_scan (c : Cursor) : c.scan.trace = TraceRecord.heard c.verbosity?
    ([.opened c.sourceBytes, .entered] ++ c.scan.reports.map Report.record ++
      [.complete c.scan.value.length (c.reported + c.scan.reports.length), .exited]) := by
  have hdrain := c.drain_keepsAccount
  rw [heard_around]
  show _ ++ c.drain.trace ++ (c.tell (.complete _ c.drain.cursor.reported) ++ _) = _
  rw [hdrain.trace, hdrain.reported]
  rfl

end Cursor

/-! ### What is due for a request -/

namespace Reply

/-- What is to be told for a reply on a source, where `total` reports were made up to and with
it. -/
def dueTrace (source : String) (total : Nat) (reply : Reply) (r : Request) : List TraceRecord :=
  match r, reply.answer with
  | .drain, .tokens ts =>
    [.opened source.utf8ByteSize, .entered] ++ reply.reports.map Report.record ++
      [.complete ts.length total, .exited]
  | _, _ => reply.reports.map Report.record

/-- Around the records of the reports nothing that is due is of the finest level. -/
theorem filter_dueTrace (source : String) (total : Nat) (reply : Reply) (r : Request) :
    (reply.dueTrace source total r).filter (fun x ↦ x.level = .trace) =
      reply.reports.map Report.record := by
  have hrecords : (reply.reports.map Report.record).filter (fun x ↦ x.level = .trace) =
      reply.reports.map Report.record := by
    rw [List.filter_map]
    exact congrArg _ (List.filter_eq_self.2 fun _ _ ↦ rfl)
  unfold dueTrace
  split
  · rw [List.filter_append, List.filter_append, hrecords]
    exact List.append_nil _
  · exact hrecords

end Reply

variable {source : String} {v? : Option Verbosity} {n : Nat} {s : Session}

/-- The cursor of a session, as long as there is one, tells that listener of its work, and has
counted `n` reports on the source. -/
def Session.HasCounted (s : Session) (source : String) (v? : Option Verbosity) (n : Nat) : Prop :=
  ∀ c ∈ s.cursor?, c.reported = n ∧ c.sourceBytes = source.utf8ByteSize ∧ c.verbosity? = v?

/-- In front of a source nothing was counted. -/
theorem hasCounted_ofSource (source : String) (v? : Option Verbosity) :
    (Session.ofSource source v?).HasCounted source v? 0 := by
  rintro c ⟨⟩
  exact ⟨rfl, Cursor.sourceBytes_ofSource source, rfl⟩

/-- An answer drawn from a pull comes with what the pull tells of its reports. -/
theorem settle_dueTrace {α : Type} {p : Pull α} {c : Cursor} (hp : p.KeepsAccount c)
    (hbytes : c.sourceBytes = source.utf8ByteSize) (f : α → Answer) :
    (Session.settle f p).1.trace = toldOf c.verbosity? p.reports ∧
      (Session.settle f p).2.HasCounted source c.verbosity? (c.reported + p.reports.length) := by
  refine ⟨hp.trace, ?_⟩
  rintro d ⟨⟩
  exact ⟨hp.reported, hp.sourceBytes.trans hbytes, hp.verbosity⟩

/-- **One request** has what is due told of it, as far as the listener wants to hear, and the count
goes on by the reports made for it. -/
theorem ask_dueTrace (h : s.HasCounted source v? n) (r : Request) :
    (s.ask r).1.trace = TraceRecord.heard v?
        ((s.ask r).1.dueTrace source (n + (s.ask r).1.reports.length) r) ∧
      (s.ask r).2.HasCounted source v? (n + (s.ask r).1.reports.length) := by
  obtain ⟨- | c⟩ := s
  · refine ⟨by cases r <;> rfl, fun c hc ↦ ?_⟩
    cases hc
  · obtain ⟨rfl, hbytes, rfl⟩ := h c rfl
    cases r with
    | next => exact settle_dueTrace c.next_keepsAccount hbytes _
    | last => exact settle_dueTrace c.drain_keepsAccount hbytes _
    | count => exact settle_dueTrace c.drain_keepsAccount hbytes _
    | nth k => exact settle_dueTrace (c.nth_keepsAccount k) hbytes _
    | take k => exact settle_dueTrace (c.take_keepsAccount k) hbytes _
    | seek kind => exact settle_dueTrace (c.seekWithin_keepsAccount c.bound kind) hbytes _
    | drain =>
      refine ⟨?_, fun d hd ↦ ?_⟩
      · show c.scan.trace = _
        rw [c.trace_scan, hbytes]
        rfl
      · cases hd

/-! ### Traces of schedules -/

/-- How many reports were made for some replies. -/
def reportCount (replies : List Reply) : Nat := (replies.flatMap Reply.reports).length

theorem reportCount_cons (reply : Reply) (more : List Reply) :
    reportCount (reply :: more) = reply.reports.length + reportCount more := by
  rw [reportCount, List.flatMap_cons, List.length_append, reportCount]

/-- There is one reply for each request. -/
theorem length_askAll (s : Session) (requests : List Request) :
    (s.askAll requests).length = requests.length := by
  induction requests generalizing s with
  | nil => rfl
  | cons r more ih => rw [askAll_cons, List.length_cons, List.length_cons, ih]

/-- **A schedule**, by induction on its requests: what is told in every step is due, with all the
reports made before counted in. -/
theorem askAll_dueTrace_from (h : s.HasCounted source v? n) (requests : List Request) {i : Nat}
    {r : Request} {reply : Reply} (hr : requests[i]? = some r)
    (hreply : (s.askAll requests)[i]? = some reply) :
    reply.trace = TraceRecord.heard v?
      (reply.dueTrace source (n + reportCount ((s.askAll requests).take (i + 1))) r) := by
  induction requests generalizing s n i with
  | nil => simp at hr
  | cons first more ih =>
    obtain ⟨htrace, hnext⟩ := ask_dueTrace h first
    rw [askAll_cons] at hreply ⊢
    rw [List.take_succ_cons, reportCount_cons, ← Nat.add_assoc]
    cases i with
    | zero =>
      cases hr
      cases hreply
      exact htrace
    | succ i => exact ih hnext hr hreply

/-! ### Listeners -/

namespace Reply

/-- A reply as another listener would have it. -/
def heard (v? : Option Verbosity) (reply : Reply) : Reply :=
  { reply with trace := TraceRecord.heard v? reply.trace }

/-- Two replies that are the same but for what was told of them are due the same. -/
theorem eq_heard {x y : Reply} {total : Nat} {r : Request} (hanswer : x.answer = y.answer)
    (hreports : x.reports = y.reports)
    (hx : x.trace = TraceRecord.heard v? (x.dueTrace source total r))
    (hy : y.trace = TraceRecord.heard (some .trace) (y.dueTrace source total r)) :
    x = y.heard v? := by
  obtain ⟨answer, reports, trace⟩ := x
  obtain ⟨_, _, trace'⟩ := y
  obtain rfl : answer = _ := hanswer
  obtain rfl : reports = _ := hreports
  rw [TraceRecord.heard_trace] at hy
  show Reply.mk _ _ trace = ⟨_, _, TraceRecord.heard v? trace'⟩
  exact congrArg _ (hx.trans (congrArg _ hy.symm))

end Reply

/-- **Two listeners to one schedule**, the second of whom hears everything, by induction on the
requests: what is told to the first is a part of what is told to the second. -/
theorem askAll_heard_from {t : Session} {requests : List Request}
    (hs : s.HasCounted source v? n) (ht : t.HasCounted source (some .trace) n)
    (hsame : (s.askAll requests).map (fun r ↦ (r.answer, r.reports)) =
      (t.askAll requests).map fun r ↦ (r.answer, r.reports)) :
    s.askAll requests = (t.askAll requests).map (Reply.heard v?) := by
  induction requests generalizing s t n with
  | nil => rfl
  | cons r more ih =>
    rw [askAll_cons, askAll_cons, List.map_cons] at hsame ⊢
    obtain ⟨hreply, hmore⟩ := List.cons.inj hsame
    obtain ⟨hanswer, hreports⟩ := Prod.mk.inj hreply
    obtain ⟨hx, hs'⟩ := ask_dueTrace hs r
    obtain ⟨hy, ht'⟩ := ask_dueTrace ht r
    rw [← hreports] at hy ht'
    rw [Reply.eq_heard hanswer hreports hx hy, ih hs' ht' hmore]

/-- Whoever listens to a schedule gets the replies of one who hears everything, but for what is not
told. -/
theorem askAll_heard (source : String) (v? : Option Verbosity) (requests : List Request) :
    (Session.ofSource source v?).askAll requests =
      ((Session.ofSource source (some .trace)).askAll requests).map (Reply.heard v?) := by
  have hplanned (w? : Option Verbosity) :=
    (askAll_reaches ((standsAt_ofSource source).telling w?) requests).1
  exact askAll_heard_from (hasCounted_ofSource source v?) (hasCounted_ofSource source (some .trace))
    ((hplanned v?).trans (hplanned (some .trace)).symm)

/-- **Traces agree with what was reported and returned.** To a listener who hears everything, every
reply to a schedule comes with the trace due for it: a record of each of its reports, in order, and
around those of a drain the size of the source, the number of tokens returned, and the number of
reports in all replies up to this one. At a coarser verbosity the same replies come with these
traces but for the records of reports, or with none, as they do without a listener. So nobody who
listens has a bearing on the answers and the reports, which are the planned ones. -/
theorem askAll_dueTrace (source : String) (requests : List Request) :
    (∀ v?, ((Session.ofSource source v?).askAll requests).length = requests.length ∧
      ((Session.ofSource source v?).askAll requests).map (fun r ↦ (r.answer, r.reports)) =
        plannedReplies source 0 requests) ∧
    (∀ (i : Nat) (r : Request) (reply : Reply), requests[i]? = some r →
      ((Session.ofSource source (some .trace)).askAll requests)[i]? = some reply →
        reply.trace.filter (fun x ↦ x.level = .trace) = reply.reports.map Report.record ∧
        reply.trace = reply.dueTrace source (reportCount
          (((Session.ofSource source (some .trace)).askAll requests).take (i + 1))) r) ∧
    (Session.ofSource source (some .debug)).askAll requests =
      ((Session.ofSource source (some .trace)).askAll requests).map (fun reply ↦
        { reply with trace := reply.trace.filter fun x ↦ x.level ≠ .trace }) ∧
    (Session.ofSource source (some .info)).askAll requests =
      ((Session.ofSource source (some .trace)).askAll requests).map
        (fun reply ↦ { reply with trace := [] }) ∧
    (Session.ofSource source none).askAll requests =
      ((Session.ofSource source (some .trace)).askAll requests).map fun reply ↦
        { reply with trace := [] } := by
  refine ⟨fun v? ↦ ⟨length_askAll _ requests, ?_⟩, fun i r reply hr hreply ↦ ?_, ?_, ?_, ?_⟩
  · exact (askAll_reaches ((standsAt_ofSource source).telling v?) requests).1
  · have hdue :=
      askAll_dueTrace_from (hasCounted_ofSource source (some .trace)) requests hr hreply
    rw [TraceRecord.heard_trace, Nat.zero_add] at hdue
    exact ⟨by rw [hdue, reply.filter_dueTrace], hdue⟩
  · rw [askAll_heard source (some .debug)]
    exact List.map_congr_left fun reply _ ↦ congrArg (Reply.mk _ _) (TraceRecord.heard_debug _)
  · rw [askAll_heard source (some .info)]
    exact List.map_congr_left fun reply _ ↦ congrArg (Reply.mk _ _) (TraceRecord.heard_info _)
  · rw [askAll_heard source none]
    exact List.map_congr_left fun reply _ ↦ congrArg (Reply.mk _ _) (TraceRecord.heard_none _)

end LoxLexer
