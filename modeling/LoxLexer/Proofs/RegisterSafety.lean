import LoxLexer.Cursor.Session
import LoxLexer.Proofs.Calls
import Mathlib.Algebra.Group.Nat.Defs
import Mathlib.Logic.Relation

/-!
# A machine with registers of 64 bits never fails

Calls only ever ask for the next token: whatever else a session can be asked for is a chain of such
pulls (`Session.leadsTo_after`). So the states of a machine in front of a piece or of the end
(`Machine.Reached`) are all that there are, and there the invariant of the routines holds
(`Machine.Reached.isSound`).

That a pass, a call or a drain has an outcome says that no sum was too large for a register, that no
difference fell below zero and that every slice lay between two boundaries of characters, in order;
for without one of these there is no outcome. The source has to be short enough for its length, and
one more, to fit into a register (`Machine.IsRoomy`), and of the values of numbers nothing is
assumed until it comes to the report that a text is none (`Machine.IsWarranted`).
-/

namespace LoxLexer

/-! ### Requests as pulls -/

namespace Cursor

variable {c d e : Cursor}

/-- Pulls of one token each lead from `c` to `d`. -/
def LeadsTo : Cursor → Cursor → Prop := Relation.ReflTransGen fun c d ↦ d = c.next.cursor

theorem leadsTo_next (c : Cursor) : c.LeadsTo c.next.cursor := .single rfl

theorem leadsTo_take (n : Nat) (c : Cursor) : c.LeadsTo (c.take n).cursor := by
  induction n generalizing c with
  | zero => exact .refl
  | succ n ih =>
    cases hnext : c.next.value with
    | none =>
      rw [take_succ_of_none hnext]
      exact c.leadsTo_next
    | some t =>
      rw [take_succ_of_some hnext]
      exact c.leadsTo_next.trans (ih _)

theorem leadsTo_nth (n : Nat) (c : Cursor) : c.LeadsTo (c.nth n).cursor :=
  (leadsTo_take n c).trans (leadsTo_next _)

theorem leadsTo_seekWithin (n : Nat) (kind : Token.Kind) (c : Cursor) :
    c.LeadsTo (c.seekWithin n kind).cursor := by
  induction n generalizing c with
  | zero => exact .refl
  | succ n ih =>
    cases hnext : c.next.value with
    | none =>
      rw [seekWithin_succ_of_none hnext]
      exact c.leadsTo_next
    | some t =>
      by_cases hkind : t.kind = kind
      · rw [seekWithin_succ_of_hit hnext hkind]
        exact c.leadsTo_next
      · rw [seekWithin_succ_of_miss hnext hkind]
        exact c.leadsTo_next.trans (ih _)

end Cursor

namespace Session

/-- The session that requests leave behind. -/
def after (s : Session) (requests : List Request) : Session :=
  requests.foldl (fun s r ↦ (s.ask r).2) s

/-- One request leads the cursor on, or uses it up. -/
theorem leadsTo_ask {s : Session} {d : Cursor} {r : Request} (h : d ∈ (s.ask r).2.cursor?) :
    ∃ c ∈ s.cursor?, c.LeadsTo d := by
  obtain ⟨- | c⟩ := s
  · cases h
  · refine ⟨c, rfl, ?_⟩
    cases r with
    | drain => cases h
    | next => exact Option.some.inj h ▸ c.leadsTo_next
    | last => exact Option.some.inj h ▸ c.leadsTo_take c.bound
    | count => exact Option.some.inj h ▸ c.leadsTo_take c.bound
    | nth n => exact Option.some.inj h ▸ c.leadsTo_nth n
    | take n => exact Option.some.inj h ▸ c.leadsTo_take n
    | seek kind => exact Option.some.inj h ▸ c.leadsTo_seekWithin c.bound kind

/-- **Requests lead the cursor on** by pulls of one token each. By induction on the requests, from
the last. -/
theorem leadsTo_after {source : String} {v? : Option Verbosity} {d : Cursor}
    {requests : List Request} (h : d ∈ ((ofSource source v?).after requests).cursor?) :
    ((Cursor.ofSource source).telling v?).LeadsTo d := by
  induction requests using List.reverseRecOn generalizing d with
  | nil => exact Option.some.inj h ▸ .refl
  | append_singleton requests r ih =>
    rw [after, List.foldl_concat] at h
    obtain ⟨c, hc, hcd⟩ := leadsTo_ask h
    exact (ih hc).trans hcd

end Session

namespace Machine

variable {m : Machine} {s t : State} {x : PlacedPiece}

/-- A machine for which numbers have the values that cursors give. -/
def standard (source : String) (capacity? : Option Nat) (v? : Option Verbosity) : Machine where
  source := source
  capacity? := capacity?
  parse text := (Numeral.ofChars? text.toList).map fun n ↦ .nearest n.toDecimal
  verbosity? := v?

/-- Cursors give every number a value. -/
theorem takesNumbers_standard (source : String) (capacity? : Option Nat)
    (v? : Option Verbosity) : (standard source capacity? v?).TakesNumbers := by
  intro text htext
  obtain ⟨n, hn⟩ := Numeral.exists_ofChars?_of_number htext
  show ((Numeral.ofChars? text.toList).map _).isSome
  rw [hn]
  rfl

/-- Unbounded registers have room for every source. -/
theorem isRoomy_unbounded (source : String) (v? : Option Verbosity) :
    (standard source none v?).IsRoomy := nofun

/-! ### Reached states -/

/-- **Whatever the machine did, it paid for.** By induction on what it did: there is no other
outcome than the one that is known of a pass or a call. -/
theorem Reached.spends (hm : m.IsRoomy) (h : m.Reached s) :
    ∃ n, m.Spends (.ofSource m.source) n s := by
  induction h with
  | start => exact ⟨0, spends_refl (isSound_ofSource m)⟩
  | pass _ hrest hpass ih =>
    obtain ⟨n, hn⟩ := ih
    obtain ⟨x, u, hu⟩ := exists_passesTo hm hn.isSound hrest
    obtain ⟨-, rfl⟩ := Prod.mk.inj (Part.mem_unique hu.mem hpass)
    exact ⟨_, hn.trans hu.spends⟩
  | next _ hnext ih =>
    obtain ⟨n, hn⟩ := ih
    obtain ⟨t?, u, hmem, hu⟩ := next_yields hm hn.isSound
    obtain ⟨-, rfl⟩ := Prod.mk.inj (Part.mem_unique hmem hnext)
    exact ⟨_, hn.trans hu.spends⟩

/-- The machine always stands somewhere in its source. -/
theorem Reached.isSound (hm : m.IsRoomy) (h : m.Reached s) : s.IsSound m := by
  obtain ⟨n, hn⟩ := h.spends hm
  exact hn.isSound

/-- Whatever was reported was told of, record by record and in the same order, and nothing else was
told. -/
theorem Reached.trace_eq (hm : m.IsRoomy) (h : m.Reached s) :
    s.trace = toldOf m.verbosity? s.reports := by
  obtain ⟨n, hn⟩ := h.spends hm
  obtain ⟨more, hreports, htrace⟩ := hn.account
  rw [htrace, hreports]
  rfl

/-- The machine gets wherever pulls from its cursor lead. -/
theorem Reached.exists_of_leadsTo (hm : m.IsRoomy) (hnumbers : m.TakesNumbers) (h : m.Reached s)
    {c : Cursor} (hc : (m.cursor s).LeadsTo c) : ∃ t, m.Reached t ∧ m.cursor t = c := by
  induction hc with
  | refl => exact ⟨s, h, rfl⟩
  | tail _ hnext ih =>
    obtain ⟨t, ht, rfl⟩ := ih
    obtain ⟨t?, u, hmem, hu⟩ := next_yields hm (ht.isSound hm)
    exact ⟨u, ht.next hmem, (hu.agrees hnumbers).cursor.trans hnext.symm⟩

/-- What holds of the registers of a machine holds of every cursor that requests leave behind. -/
theorem isWithin_after {source : String} {v? : Option Verbosity} {c : Cursor}
    {requests : List Request} (h : c ∈ ((Session.ofSource source v?).after requests).cursor?) :
    c.position.IsWithin source ∧ c.reported ≤ source.length + 1 := by
  have hm := isRoomy_unbounded source v?
  obtain ⟨s, hs, rfl⟩ := Reached.exists_of_leadsTo hm (takesNumbers_standard source none v?) .start
    (Session.leadsTo_after h)
  obtain ⟨begun, read, hat⟩ := hs.isSound hm
  exact ⟨hat.inRange.here, hat.inRange.reported_le⟩

/-! ### Slices -/

/-- What a token takes out of the source, and what a string takes besides. -/
theorem token?_eq_some {v : Token} (h : m.token? x = some v) :
    v.lexeme = .ofList x.piece.chars ∧
      (v.kind = .string → ∃ body, x.piece = .string body ∧
        v.literal = some (.string (.ofList body))) := by
  obtain ⟨piece, p⟩ := x
  cases piece with
  | blank _ => cases h
  | comment _ => cases h
  | openString _ => cases h
  | stray _ => cases h
  | string body =>
    cases h
    exact ⟨rfl, fun _ ↦ ⟨body, rfl, rfl⟩⟩
  | operator o =>
    cases h
    exact ⟨rfl, fun hkind ↦ Token.Kind.noConfusion hkind⟩
  | word text =>
    cases h
    refine ⟨rfl, fun hkind ↦ ?_⟩
    have hword : Token.Kind.ofWord (.ofList text) = .string := hkind
    exact absurd (hword ▸ rfl) (Token.Kind.isWord_ofWord (.ofList text)).not_isLiteral
  | number text =>
    cases hparse : m.parse (.ofList text) with
    | none =>
      rw [token?, event?_number_of_none hparse] at h
      cases h
    | some w =>
      rw [token?, event?_number hparse] at h
      cases h
      exact ⟨rfl, fun hkind ↦ Token.Kind.noConfusion hkind⟩

/-- The texts of a token are slices of the source that are in range. -/
structure IsSliced (m : Machine) (t : State) (v : Token) : Prop where
  lexeme : v.lexeme ∈ slice m.source t.registers.start.offset (t.registers.current m.source)
  /-- The quotes around a string are its first and its last byte. -/
  body : v.kind = .string →
    t.registers.start.offset + 1 ≤ t.registers.current m.source - 1 ∧
      ∃ body ∈ slice m.source (t.registers.start.offset + 1) (t.registers.current m.source - 1),
        v.literal = some (.string body)

theorem PassesTo.isSliced {v : Token} (h : m.PassesTo s x t) (hv : m.token? x = some v) :
    m.IsSliced t v := by
  obtain ⟨begun, -, hat⟩ := h.isAt
  obtain ⟨hlexeme, hstring⟩ := token?_eq_some hv
  constructor
  · rw [hat.current, hat.offset_start, hlexeme]
    exact mem_slice hat.source_eq
  · intro hkind
    obtain ⟨body, hx, hliteral⟩ := hstring hkind
    rw [hx] at hat
    obtain ⟨hle, hslice⟩ := mem_slice_body hat
    exact ⟨hle, _, hslice, hliteral⟩

/-! ### Safety -/

/-- Whatever the machine did up to now was in order. -/
structure State.IsSafe (m : Machine) (s : State) : Prop where
  inRange : ∀ r ∈ s.visited, r.InRange m.source
  parsed : ∀ text ∈ s.parsed, Grammar.Number text.toList
  /-- As long as numbers are taken for such, no report says that one is none. -/
  reports : m.TakesNumbers → ∀ r ∈ s.reports, ∀ text, r.problem ≠ .malformedNumber text

theorem State.IsSound.isSafe (h : s.IsSound m) : s.IsSafe m := by
  obtain ⟨begun, read, hat⟩ := h
  refine ⟨hat.visited, hat.parsed, fun hm r hr text hproblem ↦ ?_⟩
  have hwarranted := hat.warranted r hr
  rw [hproblem] at hwarranted
  obtain ⟨hnumber, hnone⟩ := hwarranted
  exact absurd (hm text hnumber) (by simp [hnone])

/-- Registers of 64 bits are more than what is needed. -/
theorem isRoomy_of_capacity (hcapacity : m.capacity? = some (2 ^ 64))
    (hsource : m.source.utf8ByteSize ≤ 2 ^ 63 - 1) : m.IsRoomy := by
  intro n hn
  obtain rfl : 2 ^ 64 = n := Option.some.inj (hcapacity.symm.trans hn)
  exact Nat.lt_of_le_of_lt (Nat.succ_le_succ hsource) (by decide)

/-- **No panic and no impossible report.** On a source of at most 2^63 - 1 bytes, a machine with
registers of 64 bits had all of them in range at every time, and took only the text of numbers for
such. From wherever it got, a pass, a call and a drain have an outcome, with slices in range, and
but for the values of numbers this is what the cursor there gives. Any requests to a session leave
such a cursor behind, and it is in range as well. -/
theorem no_panic (m : Machine) (hcapacity : m.capacity? = some (2 ^ 64))
    (hsource : m.source.utf8ByteSize ≤ 2 ^ 63 - 1) :
    (∀ s, m.Reached s →
      s.IsSafe m ∧
      (s.registers.rest ≠ [] → Yields m.pass s fun t? t ↦ ∀ v ∈ t?, m.IsSliced t v) ∧
      (Yields m.next s fun t? t ↦
        m.TakesNumbers → m.Agrees s ((m.cursor s).next.map (·.map m.revalue)) t? t) ∧
      Yields m.drain s fun ts t ↦ t.IsSafe m ∧
        (m.TakesNumbers → m.Agrees s ((m.cursor s).drain.map (·.map m.revalue)) ts t)) ∧
      ∀ requests, ∀ c ∈ ((Session.ofSource m.source m.verbosity?).after requests).cursor?,
        c.position.IsWithin m.source ∧ c.reported ≤ m.source.length + 1 ∧
          (m.TakesNumbers → ∃ s, m.Reached s ∧ m.cursor s = c) := by
  have hm := isRoomy_of_capacity hcapacity hsource
  refine ⟨fun s hs ↦ ?_, fun requests c hc ↦ ?_⟩
  · have hsound := hs.isSound hm
    refine ⟨hsound.isSafe, fun hrest ↦ ?_, ?_, ?_⟩
    · obtain ⟨x, t, hpass⟩ := exists_passesTo hm hsound hrest
      exact ⟨_, t, hpass.mem, fun v hv ↦ hpass.isSliced hv⟩
    · obtain ⟨t?, t, hnext, hanswers⟩ := next_yields hm hsound
      exact ⟨t?, t, hnext, hanswers.agrees⟩
    · obtain ⟨ts, t, hdrain, hdrains⟩ := drain_yields hm hsound
      exact ⟨ts, t, hdrain, hdrains.spends.isSound.isSafe, hdrains.agrees_drain⟩
  · obtain ⟨hposition, hreported⟩ := isWithin_after hc
    refine ⟨hposition, hreported, fun hnumbers ↦ ?_⟩
    exact Reached.exists_of_leadsTo hm hnumbers .start (Session.leadsTo_after hc)

/-- A source with a character of two bytes between quotes, and a number behind it. -/
theorem no_panic_of_accent :
    (standard "\"é\" 1.5" (some (2 ^ 64)) (some .trace)).capacity? = some (2 ^ 64) ∧
      (standard "\"é\" 1.5" (some (2 ^ 64)) (some .trace)).source.utf8ByteSize ≤ 2 ^ 63 - 1 ∧
      ∃ t, ([⟨.string, "\"é\"", some (.string "é"), .start⟩,
          ⟨.number, "1.5", some (.number ⟨0x3ff8000000000000⟩), ⟨1, 5, 5⟩⟩,
          .endOfFile ⟨1, 8, 8⟩], t) ∈
          (standard "\"é\" 1.5" (some (2 ^ 64)) (some .trace)).drain (.ofSource "\"é\" 1.5") ∧
        t.reports = [] ∧ t.IsSafe (standard "\"é\" 1.5" (some (2 ^ 64)) (some .trace)) := by
  have hsource : (standard "\"é\" 1.5" (some (2 ^ 64)) (some .trace)).source.utf8ByteSize ≤
      2 ^ 63 - 1 := by
    decide +kernel
  have htokens : (lex "\"é\" 1.5").tokens.map
      (standard "\"é\" 1.5" (some (2 ^ 64)) (some .trace)).revalue =
      [⟨.string, "\"é\"", some (.string "é"), .start⟩,
        ⟨.number, "1.5", some (.number ⟨0x3ff8000000000000⟩), ⟨1, 5, 5⟩⟩,
        .endOfFile ⟨1, 8, 8⟩] := by decide +kernel
  have hnone : (lex "\"é\" 1.5").reports = [] := by decide +kernel
  obtain ⟨ts, t, hdrain, hsafe, hagrees⟩ :=
    ((no_panic (standard "\"é\" 1.5" (some (2 ^ 64)) (some .trace)) rfl hsource).1 _ .start).2.2.2
  obtain ⟨hts, ht⟩ := (hagrees (takesNumbers_standard _ _ _)).eq_lex
  exact ⟨rfl, hsource, t, (hts.trans htokens) ▸ hdrain, ht.trans hnone, hsafe⟩

end Machine

end LoxLexer
