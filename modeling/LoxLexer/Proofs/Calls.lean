import LoxLexer.Proofs.Literals
import LoxLexer.Proofs.Passes

/-!
# Calls of a machine and pulls of a cursor

Seen from outside, a machine is a cursor: forgetting where the present piece begins turns its
registers into one (`Machine.cursor`). A pass of the machine is a pass of that cursor
(`Machine.exists_passesTo`), and from this a call is a pull, a drain is one of the cursor, and so is
a scan with all that is told of it (`Machine.next_yields`, `Machine.drain_yields`,
`Machine.scan_yields`). The two may differ in the value of a number, which is what the machine takes
the text for (`Machine.revalue`).

Whether the loops come to an end is decided by what is left (`Machine.State.left`): the characters
not consumed, and one for the end of the source. A pass consumes a character or more and pays with
it for at most one token or report, so tokens and reports together never exceed what was left
(`Machine.Spends`).
-/

namespace LoxLexer

namespace Cursor

variable {c d : Cursor} {x : PlacedPiece} {t : Token}

/-- A pass takes the piece that is read, and counts its report. -/
theorem pass?_of_read {first : Char} {rest after : List Char} {y : Piece}
    (hrest : c.rest = first :: rest) (hread : Piece.read first rest = (y, after)) :
    c.pass? = some ((⟨y, c.position⟩ : PlacedPiece).event?, ⟨after, c.position.after y.chars,
      c.reported + (⟨y, c.position⟩ : PlacedPiece).report?.toList.length, c.finished,
        c.verbosity?⟩) := by
  rw [pass?, hrest]
  dsimp only
  rw [hread]
  rfl

/-- A pull ends with the first piece that is a token. -/
theorem next_of_token? (h : c.pass? = some (x.event?, d)) (hx : x.token? = some t) :
    c.next = ⟨some t, [], [], d⟩ := by
  obtain ⟨e, he, het⟩ := Option.bind_eq_some_iff.1 hx
  rw [he] at h
  cases e with
  | token u =>
    cases het
    exact next_of_token h
  | report r => cases het

/-- A pull goes on behind a piece that is none. -/
theorem next_of_no_token? (h : c.pass? = some (x.event?, d)) (hx : x.token? = none) :
    c.next = ⟨d.next.value, x.report?.toList ++ d.next.reports,
      toldOf d.verbosity? x.report?.toList ++ d.next.trace, d.next.cursor⟩ := by
  rw [PlacedPiece.token?] at hx
  rw [PlacedPiece.report?]
  generalize x.event? = e at h hx
  rcases e with - | (t | r)
  · exact next_of_silence h
  · cases hx
  · rw [next_of_report h]
    show _ = Pull.mk _ _ (toldOf d.verbosity? [r] ++ _) _
    rw [toldOf_singleton]
    rfl

end Cursor

namespace Machine

variable {m : Machine} {s t u : State} {t? : Option Token} {x : PlacedPiece}

/-! ### Machines and cursors -/

/-- The machine stands somewhere in its source. -/
def State.IsSound (m : Machine) (s : State) : Prop :=
  ∃ begun read, s.IsAt m begun read s.registers.rest s.reports s.trace s.registers.finished

/-- A machine at some place stands somewhere in its source. -/
theorem State.IsAt.isSound {begun read rest : List Char} {reports : List Report}
    {trace : List TraceRecord} {finished : Bool}
    (h : s.IsAt m begun read rest reports trace finished) : s.IsSound m := by
  refine ⟨begun, read, ?_⟩
  rw [h.registers_eq, h.reports_eq, h.trace_eq]
  exact h

/-- At first the machine stands in front of its source. -/
theorem isSound_ofSource (m : Machine) : (State.ofSource m.source).IsSound m := by
  refine ⟨[], [], rfl, rfl, rfl, rfl, Nat.le_refl 0, ?_, List.forall_mem_nil _,
    List.forall_mem_nil _⟩
  refine List.forall_mem_singleton.2 ?_
  have hsource : m.source.toList = [] ++ ([] ++ m.source.toList) := rfl
  exact inRange_of_source hsource (Nat.le_refl 0)

/-- The cursor that a state amounts to. -/
def cursor (m : Machine) (s : State) : Cursor :=
  ⟨s.registers.rest, s.registers.here, s.registers.reported, s.registers.finished, m.verbosity?⟩

/-- The cursor at a place has read what the machine read. -/
theorem State.IsAt.cursor {begun read rest : List Char} {reports : List Report}
    {trace : List TraceRecord} {finished : Bool}
    (h : s.IsAt m begun read rest reports trace finished) :
    m.cursor s =
      ⟨rest, Position.start.after (begun ++ read), reports.length, finished, m.verbosity?⟩ := by
  rw [Machine.cursor, h.registers_eq]

/-- What is left to be read: characters, and the end of the source. -/
def State.left (s : State) : Nat :=
  s.registers.rest.length + if s.registers.finished then 0 else 1

/-- Nothing is left exactly if all was read and the end was given out. -/
theorem left_eq_zero_iff : s.left = 0 ↔ s.registers.rest = [] ∧ s.registers.finished := by
  rw [State.left, Nat.add_eq_zero_iff, List.length_eq_zero_iff]
  refine and_congr_right fun _ ↦ ?_
  cases s.registers.finished <;> decide

/-- The text of every number is taken for a number. -/
def TakesNumbers (m : Machine) : Prop :=
  ∀ text : String, Grammar.Number text.toList → (m.parse text).isSome

/-- A token with the value that the machine takes its text for, if it is a number. -/
def revalue (m : Machine) (t : Token) : Token :=
  if t.kind = .number then { t with literal := (m.parse t.lexeme).map .number } else t

theorem revalue_of_ne {v : Token} (h : v.kind ≠ .number) : m.revalue v = v := if_neg h

/-- No word is a number. -/
theorem ofWord_ne_number (w : String) : Token.Kind.ofWord w ≠ .number :=
  fun h ↦ (Token.Kind.isWord_ofWord w).not_isLiteral (h ▸ rfl)

/-- For a machine that takes numbers, a sound piece amounts to what it always does, but for its
value. -/
theorem event?_eq (hm : m.TakesNumbers) (hx : x.piece.IsSound) :
    m.token? x = x.token?.map m.revalue ∧ m.report? x = x.report? := by
  obtain ⟨piece, p⟩ := x
  cases piece with
  | number text =>
    have hnumber : Grammar.Number text := hx
    obtain ⟨v, hv⟩ := PlacedPiece.token?_number hnumber
    obtain ⟨w, hw⟩ := Option.isSome_iff_exists.1
      (hm (.ofList text) (by rwa [String.toList_ofList]))
    rw [token?, report?, event?_number hw, hv, PlacedPiece.report?_number hnumber, Option.map_some,
      revalue, if_pos rfl, hw]
    exact ⟨rfl, rfl⟩
  | word text =>
    have htoken : m.token? ⟨.word text, p⟩ =
        some ⟨.ofWord (.ofList text), .ofList text, none, p⟩ := rfl
    refine ⟨?_, rfl⟩
    rw [htoken, PlacedPiece.token?_word, Option.map_some, revalue_of_ne (ofWord_ne_number _)]
  | string body => exact ⟨rfl, rfl⟩
  | operator o => exact ⟨rfl, rfl⟩
  | blank _ => exact ⟨rfl, rfl⟩
  | comment _ => exact ⟨rfl, rfl⟩
  | openString _ => exact ⟨rfl, rfl⟩
  | stray _ => exact ⟨rfl, rfl⟩

/-! ### One pass -/

/-- A pass from `s` to `t` reads the piece `x`. -/
structure PassesTo (m : Machine) (s : State) (x : PlacedPiece) (t : State) : Prop where
  mem : (m.token? x, t) ∈ m.pass s
  isAt : ∃ begun, x = x.piece.behind begun ∧
    t.IsAt m begun x.piece.chars t.registers.rest t.reports t.trace t.registers.finished
  piece : x.piece.IsSound
  rest : s.registers.rest = x.piece.chars ++ t.registers.rest
  reports : t.reports = s.reports ++ (m.report? x).toList
  trace : t.trace = s.trace ++ toldOf m.verbosity? (m.report? x).toList
  finished : t.registers.finished = s.registers.finished
  /-- A pass of the cursor leads to the same place, unless the text of a number was refused. -/
  pass? : m.report? x = x.report? → (m.cursor s).pass? = some (x.event?, m.cursor t)

theorem PassesTo.isSound (h : m.PassesTo s x t) : t.IsSound m := by
  obtain ⟨begun, -, hat⟩ := h.isAt
  exact hat.isSound

/-- **Every pass in front of a character has an outcome.** -/
theorem exists_passesTo (hm : m.IsRoomy) (h : s.IsSound m) (hrest : s.registers.rest ≠ []) :
    ∃ x t, m.PassesTo s x t := by
  obtain ⟨begun, read, hat⟩ := h
  obtain ⟨c, rest, hcons⟩ := List.exists_cons_of_ne_nil hrest
  rw [hcons] at hat
  obtain ⟨y, after, hread⟩ : ∃ y after, Piece.read c rest = (y, after) := ⟨_, _, rfl⟩
  have hyields := pass_yields hm hat
  rw [hread] at hyields
  obtain ⟨t?, t, hmem, rfl, ht⟩ := hyields
  obtain ⟨hchars, hsound, -⟩ := Piece.read_eq_iff.1 hread
  refine ⟨y.behind (begun ++ read), t, hmem, ⟨begun ++ read, rfl, ?_⟩, hsound, ?_, ht.reports_eq,
    ht.trace_eq, ?_, fun hreport ↦ ?_⟩
  · rw [ht.registers_eq, ht.reports_eq, ht.trace_eq]
    exact ht
  · rw [hcons, ht.registers_eq]
    exact hchars.symm
  · rw [ht.registers_eq]
  · rw [ht.cursor, hat.cursor, Cursor.pass?_of_read rfl hread,
      Position.after_append _ (begun ++ read), List.length_append, hreport]
    rfl

/-! ### What is paid and what is given -/

/-- On the way from `s` to `t` the machine paid for `n` tokens, and for every report, with something
that was left. -/
structure Spends (m : Machine) (s : State) (n : Nat) (t : State) : Prop where
  isSound : t.IsSound m
  /-- What was reported on the way was told of, and nothing else. -/
  account : ∃ more, t.reports = s.reports ++ more ∧ t.trace = s.trace ++ toldOf m.verbosity? more
  spent : n + t.reports.length + t.left ≤ s.reports.length + s.left

theorem spends_refl (h : s.IsSound m) : m.Spends s 0 s :=
  ⟨h, ⟨[], (List.append_nil _).symm, (List.append_nil _).symm⟩, by rw [Nat.zero_add]⟩

/-- What is paid on the way is paid on its parts. -/
theorem Spends.trans {a b : Nat} (h : m.Spends s a t) (h' : m.Spends t b u) :
    m.Spends s (a + b) u := by
  obtain ⟨more, hreports, htrace⟩ := h.account
  obtain ⟨more', hreports', htrace'⟩ := h'.account
  refine ⟨h'.isSound, ⟨more ++ more', ?_, ?_⟩, ?_⟩
  · rw [hreports', hreports, List.append_assoc]
  · rw [htrace', htrace, List.append_assoc, toldOf_append]
  · have := h.spent
    have := h'.spent
    omega

/-- What is left shrinks with every token. -/
theorem Spends.left_add_le {n : Nat} (h : m.Spends s n t) : t.left + n ≤ s.left := by
  obtain ⟨more, hreports, -⟩ := h.account
  have hspent := h.spent
  rw [hreports, List.length_append] at hspent
  omega

/-- A piece is one token or one report at most. -/
theorem length_event?_le (m : Machine) (x : PlacedPiece) :
    (m.token? x).toList.length + (m.report? x).toList.length ≤ 1 := by
  rw [token?, report?]
  rcases m.event? x with - | (_ | _)
  · exact Nat.zero_le 1
  · exact Nat.le_refl 1
  · exact Nat.le_refl 1

/-- A pass pays for a token or a report with the characters that it consumes. -/
theorem PassesTo.spends (h : m.PassesTo s x t) : m.Spends s (m.token? x).toList.length t := by
  have hone := length_event?_le m x
  have hchars := List.length_pos_of_ne_nil h.piece.chars_ne_nil
  refine ⟨h.isSound, ⟨_, h.reports, h.trace⟩, ?_⟩
  rw [State.left, State.left, h.reports, h.rest, h.finished, List.length_append, List.length_append]
  omega

/-- What the machine gives and tells on the way from `s` to `t` is what the pull `p` does. -/
structure Agrees {α : Type} (m : Machine) (s : State) (p : Pull α) (a : α) (t : State) : Prop where
  value : a = p.value
  reports : t.reports = s.reports ++ p.reports
  trace : t.trace = s.trace ++ p.trace
  cursor : m.cursor t = p.cursor

theorem agrees_refl {α : Type} (a : α) : m.Agrees s ⟨a, [], [], m.cursor s⟩ a s :=
  ⟨rfl, (List.append_nil _).symm, (List.append_nil _).symm, rfl⟩

/-- What is given and told on the way from `s` to `t` comes in front of what is on the way from
there. -/
theorem Agrees.trans {α β γ : Type} {p : Pull α} {q : Pull β} {a : α} {b : β} {c d : γ}
    (h : m.Agrees s p a t) (h' : m.Agrees t q b u) (hc : c = d) :
    m.Agrees s ⟨d, p.reports ++ q.reports, p.trace ++ q.trace, q.cursor⟩ c u := by
  refine ⟨hc, ?_, ?_, h'.cursor⟩
  · rw [h'.reports, h.reports, List.append_assoc]
  · rw [h'.trace, h.trace, List.append_assoc]

/-- A pass as a pull of what it read. -/
theorem PassesTo.agrees {α : Type} (h : m.PassesTo s x t) (a : α) :
    m.Agrees s ⟨a, (m.report? x).toList, toldOf m.verbosity? (m.report? x).toList, m.cursor t⟩ a
      t :=
  ⟨rfl, h.reports, h.trace, rfl⟩

/-- A call for the next token agrees with a pull, as long as numbers are taken for such. -/
structure Answers (m : Machine) (s : State) (t? : Option Token) (t : State) : Prop where
  spends : m.Spends s t?.toList.length t
  agrees : m.TakesNumbers → m.Agrees s ((m.cursor s).next.map (·.map m.revalue)) t? t

/-! ### One call -/

/-- Once the end was given out, the cursor has nothing to give. -/
theorem next_of_finished (hrest : s.registers.rest = []) (hfinished : s.registers.finished) :
    (m.cursor s).next = ⟨none, [], [], m.cursor s⟩ := by
  have hfinished : (m.cursor s).finished := hfinished
  rw [Cursor.next_of_end (Cursor.pass?_eq_none_iff.2 hrest), if_pos hfinished]

/-- When the end of the source was given out, nothing more is. -/
theorem next_yields_of_finished (h : s.IsSound m) (hrest : s.registers.rest = [])
    (hfinished : s.registers.finished) : Yields m.next s (m.Answers s) := by
  refine ⟨none, s, mem_loop_of_inl (mem_bind_iff.2 ⟨_, mem_registers, ?_⟩), spends_refl h,
    fun _ ↦ ?_⟩
  · rw [if_pos hrest, if_pos hfinished]
    exact Part.mem_some _
  · rw [next_of_finished hrest hfinished]
    exact agrees_refl none

/-- At its end the source is given out as a token. -/
theorem next_yields_of_end (h : s.IsSound m) (hrest : s.registers.rest = [])
    (hfinished : s.registers.finished = false) : Yields m.next s (m.Answers s) := by
  obtain ⟨begun, read, hat⟩ := h
  rw [hrest, hfinished] at hat
  -- behind the last character the offset is the length of the source
  have hend : m.source.utf8ByteSize = (Position.start.after (begun ++ read)).offset := by
    rw [offset_start_after, ← hat.current, Registers.current, if_pos hrest]
  refine yields_loop (yields_bind_of_mem mem_registers ?_)
  rw [hat.registers_eq, if_pos rfl, if_neg Bool.false_ne_true, hend]
  refine (hat.store hat.source_eq (Nat.le_refl _)).bind fun _ t ht ↦ yields_pure ?_
  have hreports := ht.reports_eq.trans (List.append_nil _).symm
  have htrace := ht.trace_eq.trans (List.append_nil _).symm
  refine ⟨⟨ht.isSound, ⟨[], hreports, htrace⟩, ?_⟩, fun _ ↦ ?_⟩
  · have hs : s.left = 1 := by rw [State.left, hrest, hfinished]; rfl
    have ht' : t.left = 0 := by rw [State.left, ht.registers_eq]; rfl
    rw [ht.reports_eq, hs, ht']
    exact (Nat.add_comm 1 _).le
  · rw [hat.cursor, Cursor.next_of_end rfl, if_neg Bool.false_ne_true]
    exact ⟨rfl, hreports, htrace, ht.cursor⟩

/-- A call ends with the first pass that gives a token. -/
theorem mem_next_of_token {v : Token} (hrest : s.registers.rest ≠ [])
    (hpass : (some v, t) ∈ m.pass s) : (some v, t) ∈ m.next s := by
  refine mem_loop_of_inl (mem_bind_iff.2 ⟨_, mem_registers, ?_⟩)
  rw [if_neg hrest]
  exact mem_bind_iff.2 ⟨_, hpass, Part.mem_some _⟩

/-- A call goes on behind a pass that gives none. -/
theorem mem_next_of_none (hrest : s.registers.rest ≠ []) (hpass : (none, t) ∈ m.pass s)
    (hnext : (t?, u) ∈ m.next t) : (t?, u) ∈ m.next s := by
  refine mem_loop_of_inr (mem_bind_iff.2 ⟨_, mem_registers, ?_⟩) hnext
  rw [if_neg hrest]
  exact mem_bind_iff.2 ⟨_, hpass, Part.mem_some _⟩

/-- A pass that gives a token is the whole call. -/
theorem PassesTo.answers_of_token {v : Token} (h : m.PassesTo s x t) (hv : m.token? x = some v) :
    m.Answers s (some v) t := by
  refine ⟨hv ▸ h.spends, fun hm ↦ ?_⟩
  obtain ⟨htoken, hreport⟩ := event?_eq hm h.piece
  obtain ⟨w, hw, rfl⟩ := Option.map_eq_some_iff.1 (htoken.symm.trans hv)
  have hagrees := h.agrees (some (m.revalue w))
  rw [report?_eq_none_of_token? hv] at hagrees
  rw [Cursor.next_of_token? (h.pass? hreport) hw]
  exact hagrees

/-- A pass that gives none is the first part of a call. -/
theorem PassesTo.answers_of_no_token (h : m.PassesTo s x t) (hx : m.token? x = none)
    (ht : m.Answers t t? u) : m.Answers s t? u := by
  constructor
  · have hspends := h.spends.trans ht.spends
    rw [hx] at hspends
    simpa using hspends
  · intro hm
    obtain ⟨htoken, hreport⟩ := event?_eq hm h.piece
    have hnone : x.token? = none := Option.map_eq_none_iff.1 (htoken.symm.trans hx)
    have hagrees := (h.agrees ()).trans (ht.agrees hm) (ht.agrees hm).value
    rw [hreport] at hagrees
    rw [Cursor.next_of_no_token? (h.pass? hreport) hnone]
    exact hagrees

/-- **Every call has an outcome.** By induction on the text left: a pass either ends the call or
leaves less. -/
theorem next_yields (hm : m.IsRoomy) (h : s.IsSound m) : Yields m.next s (m.Answers s) := by
  induction hn : s.registers.rest.length using Nat.strong_induction_on generalizing s with
  | _ n ih =>
    subst hn
    by_cases hrest : s.registers.rest = []
    · cases hfinished : s.registers.finished with
      | true => exact next_yields_of_finished h hrest hfinished
      | false => exact next_yields_of_end h hrest hfinished
    · obtain ⟨x, t, hpass⟩ := exists_passesTo hm h hrest
      have hmem := hpass.mem
      cases htoken : m.token? x with
      | some v =>
        rw [htoken] at hmem
        exact ⟨_, t, mem_next_of_token hrest hmem, hpass.answers_of_token htoken⟩
      | none =>
        rw [htoken] at hmem
        have hlt : t.registers.rest.length < s.registers.rest.length := by
          rw [hpass.rest, List.length_append]
          exact Nat.lt_add_of_pos_left (List.length_pos_of_ne_nil hpass.piece.chars_ne_nil)
        obtain ⟨t?, u, hnext, ht⟩ := ih _ hlt hpass.isSound rfl
        exact ⟨t?, u, mem_next_of_none hrest hmem hnext, hpass.answers_of_no_token htoken ht⟩

/-! ### Drains -/

/-- What a drain gives out of what is left: as many tokens as it can pay for, and those that as many
pulls would give. -/
structure Drains (m : Machine) (s : State) (ts : List Token) (t : State) : Prop where
  spends : m.Spends s ts.length t
  agrees : m.TakesNumbers → ∀ n, s.left ≤ n →
    m.Agrees s (((m.cursor s).take n).map (·.map m.revalue)) ts t

/-- A drain ends with a call that gives nothing. -/
theorem Answers.drains_of_none (h : m.Answers s none t) : m.Drains s [] t := by
  refine ⟨h.spends, fun hm n hn ↦ ?_⟩
  have hagrees := h.agrees hm
  have hvalue : (m.cursor s).next.value = none := Option.map_eq_none_iff.1 hagrees.value.symm
  cases n with
  | zero =>
    obtain ⟨hrest, hfinished⟩ := left_eq_zero_iff.1 (Nat.le_zero.1 hn)
    rw [next_of_finished hrest hfinished] at hagrees
    exact ⟨rfl, hagrees.reports, hagrees.trace, hagrees.cursor⟩
  | succ n =>
    have hlast := hagrees.trans (agrees_refl ()) (Eq.refl ([] : List Token))
    rw [hagrees.cursor] at hlast
    rw [Cursor.take_succ_of_none hvalue]
    exact hlast

/-- A drain goes on behind a call that gives a token. -/
theorem Answers.drains_of_some {v : Token} {ts : List Token} (h : m.Answers s (some v) t)
    (ht : m.Drains t ts u) : m.Drains s (v :: ts) u := by
  refine ⟨?_, fun hm n hn ↦ ?_⟩
  · rw [List.length_cons, Nat.add_comm]
    exact h.spends.trans ht.spends
  have hagrees := h.agrees hm
  obtain ⟨w, hw, rfl⟩ := Option.map_eq_some_iff.1 hagrees.value.symm
  have hleft : t.left + 1 ≤ s.left := h.spends.left_add_le
  obtain ⟨k, rfl⟩ := Nat.exists_eq_add_of_le' (Nat.le_trans (Nat.le_add_left 1 _) (hleft.trans hn))
  have htake := ht.agrees hm k (Nat.le_of_succ_le_succ (hleft.trans hn))
  rw [hagrees.cursor] at htake
  have hmore := hagrees.trans htake (congrArg (m.revalue w :: ·) htake.value)
  rw [Cursor.take_succ_of_some hw]
  exact hmore

/-- **Every drain has an outcome**, whatever tokens come before. By induction on what is left. -/
theorem collect_yields (hm : m.IsRoomy) (h : s.IsSound m) (ts : List Token) :
    Yields (m.collect ts) s fun all t ↦ ∃ more, all = ts ++ more ∧ m.Drains s more t := by
  induction hn : s.left using Nat.strong_induction_on generalizing s ts with
  | _ n ih =>
    subst hn
    obtain ⟨t?, t, hnext, hanswers⟩ := next_yields hm h
    cases t? with
    | none =>
      refine ⟨ts, t, mem_loop_of_inl (mem_bind_iff.2 ⟨_, hnext, Part.mem_some _⟩), [], ?_⟩
      exact ⟨(List.append_nil ts).symm, hanswers.drains_of_none⟩
    | some v =>
      have hleft : t.left + 1 ≤ s.left := hanswers.spends.left_add_le
      obtain ⟨all, u, hloop, more, rfl, hdrains⟩ :=
        ih _ hleft hanswers.spends.isSound (ts ++ [v]) rfl
      refine ⟨_, u, mem_loop_of_inr (mem_bind_iff.2 ⟨_, hnext, Part.mem_some _⟩) hloop, v :: more,
        List.append_assoc .., hanswers.drains_of_some hdrains⟩

/-- **Every drain from its start has an outcome.** -/
theorem drain_yields (hm : m.IsRoomy) (h : s.IsSound m) : Yields m.drain s (m.Drains s) := by
  obtain ⟨all, t, hmem, ts, hall, hdrains⟩ := collect_yields hm h []
  exact ⟨all, t, hmem, hall ▸ hdrains⟩

/-- A drain agrees with one of the cursor: that pulls as often as there is something left. -/
theorem Drains.agrees_drain {ts : List Token} (h : m.Drains s ts t) (hm : m.TakesNumbers) :
    m.Agrees s ((m.cursor s).drain.map (·.map m.revalue)) ts t := by
  refine h.agrees hm (m.cursor s).bound (Nat.add_le_add_left ?_ _)
  split
  · exact Nat.zero_le 1
  · exact Nat.le_refl 1

/-- What agrees with a drain in front of the source is what lexing gives. -/
theorem Agrees.eq_lex {source : String} {ts : List Token} {f : Token → Token}
    (h : m.Agrees (.ofSource source) ((m.cursor (.ofSource source)).drain.map (·.map f)) ts t) :
    ts = (lex source).tokens.map f ∧ t.reports = (lex source).reports := by
  obtain ⟨hvalue, hreports⟩ := drain_ofSource source m.verbosity?
  exact ⟨h.value.trans (congrArg (List.map f) hvalue), h.reports.trans hreports⟩

/-! ### Scans -/

/-- What a cursor read and what it has in front of it is the source. -/
theorem State.IsSound.sourceBytes (h : s.IsSound m) :
    (m.cursor s).sourceBytes = m.source.utf8ByteSize := by
  obtain ⟨begun, read, hat⟩ := h
  rw [hat.cursor, Cursor.sourceBytes, utf8ByteSize_eq hat.source_eq, offset_start_after,
    ← List.append_assoc, byteLength_append (begun ++ read)]

/-- **Every scan has an outcome.** It is that of a drain, and around the records of its reports it
is told how long the source is, how many tokens were read, and how many reports were made up to
then. -/
theorem scan_yields (hm : m.IsRoomy) (h : s.IsSound m) :
    Yields m.scan s fun ts t ↦
      (∃ more, t.reports = s.reports ++ more ∧
        t.trace = s.trace ++ TraceRecord.heard m.verbosity?
          ([.opened m.source.utf8ByteSize, .entered] ++ more.map Report.record ++
            [.complete ts.length t.reports.length, .exited])) ∧
      (m.TakesNumbers → m.Agrees s ((m.cursor s).scan.map (·.map m.revalue)) ts t) := by
  have hbytes := h.sourceBytes
  obtain ⟨begun, read, hat⟩ := h
  refine (tell_yields hat _).bind fun _ s₁ h₁ ↦ (tell_yields h₁ _).bind fun _ s₂ h₂ ↦ ?_
  have hcursor : m.cursor s₂ = m.cursor s := h₂.cursor.trans hat.cursor.symm
  refine (drain_yields hm h₂.isSound).bind fun ts t hdrains ↦ yields_bind_of_mem mem_registers ?_
  obtain ⟨begun', read', ht⟩ := hdrains.spends.isSound
  refine (tell_yields ht _).bind fun _ t₁ h₃ ↦ (tell_yields h₃ _).bind fun _ t₂ h₄ ↦
    yields_pure ⟨?_, fun hnumbers ↦ ?_⟩
  · obtain ⟨more, hreports, htrace⟩ := hdrains.spends.account
    have hcount : t.registers.reported = t₂.reports.length := by
      rw [ht.registers_eq, h₄.reports_eq]
    refine ⟨more, by rw [h₄.reports_eq, hreports, h₂.reports_eq], ?_⟩
    rw [h₄.trace_eq, htrace, h₂.trace_eq, hcount, heard_around]
    simp only [List.append_assoc]
  · have hagrees := hdrains.agrees_drain hnumbers
    rw [hcursor] at hagrees
    have hcount : t.registers.reported = (m.cursor s).drain.cursor.reported :=
      congrArg Cursor.reported hagrees.cursor
    have hlength : ts.length = (m.cursor s).drain.value.length := by
      rw [hagrees.value]
      exact List.length_map _
    have htrace : t₂.trace = s.trace ++ (m.cursor s).scan.trace := by
      rw [h₄.trace_eq, hagrees.trace, h₂.trace_eq, hcount, hlength, Cursor.scan, hbytes]
      simp only [List.append_assoc]
      rfl
    refine ⟨hagrees.value, ?_, htrace, h₄.cursor.trans (ht.cursor.symm.trans hagrees.cursor)⟩
    rw [h₄.reports_eq, hagrees.reports, h₂.reports_eq]
    rfl

end Machine

end LoxLexer
