import LoxLexer.Cursor.Registers
import LoxLexer.Proofs.TokenPositions

/-!
# What the routines of a machine do

A machine always stands at some place in its source (`Machine.State.IsAt`): behind a text begun
earlier and the part of the present piece that was read. The place determines the registers, so
that they are in range (`Machine.Registers.InRange`), and every routine is described by where it
leads (`Machine.Yields`): consuming a run of characters, it leads behind the run. That a routine has
an outcome at all is a part of each description, and rests on the registers having room for the
length of the source (`Machine.IsRoomy`).
-/

namespace LoxLexer

/-! ### Positions within a source -/

/-- A position is that of a boundary between characters, and counts no further than the source
goes. -/
structure Position.IsWithin (p : Position) (source : String) : Prop where
  offset_le : p.offset ≤ source.utf8ByteSize
  boundary : (⟨p.offset⟩ : String.Pos.Raw).IsValid source
  line_le : p.line ≤ source.length + 1
  column_le : p.column ≤ source.length + 1

theorem utf8ByteSize_eq {source : String} {text : List Char} (h : source.toList = text) :
    source.utf8ByteSize = byteLength text := by
  rw [← h, ← utf8ByteSize_ofList, String.ofList_toList]

theorem length_eq {source : String} {text : List Char} (h : source.toList = text) :
    source.length = text.length := by
  rw [← h, String.length_toList]

/-- The position behind any beginning of a source lies within it. -/
theorem Position.isWithin_after {source : String} {before after : List Char}
    (h : source.toList = before ++ after) : (start.after before).IsWithin source := by
  have hlength : before.length ≤ source.length := by
    rw [length_eq h, List.length_append]
    exact Nat.le_add_right _ _
  constructor
  · rw [offset_start_after, utf8ByteSize_eq h, byteLength_append]
    exact Nat.le_add_right _ _
  · refine String.Pos.Raw.isValid_iff_exists_append.2 ⟨.ofList before, .ofList after, ?_, ?_⟩
    · rw [← String.ofList_append, ← h, String.ofList_toList]
    · rw [offset_start_after, ← utf8ByteSize_ofList]
      rfl
  · have hcount : before.count '\n' ≤ before.length := List.count_le_length
    rw [line_start_after]
    omega
  · have hlast : (before.rtakeWhile (· ≠ '\n')).length ≤ before.length :=
      (List.rtakeWhile_suffix _ _).length_le
    rw [column_after]
    omega

/-- A text has no more characters than bytes. -/
theorem length_le_utf8ByteSize (source : String) : source.length ≤ source.utf8ByteSize := by
  rw [length_eq rfl, utf8ByteSize_eq rfl]
  induction source.toList with
  | nil => exact Nat.le_refl _
  | cons c text ih =>
    have hc := c.utf8Size_pos
    rw [List.length_cons, byteLength_cons]
    omega

namespace Machine

/-- The registers hold places in the source, and count no more reports than characters. -/
structure Registers.InRange (r : Registers) (source : String) : Prop where
  start : r.start.IsWithin source
  here : r.here.IsWithin source
  /-- The end of the source is where its last character ends. -/
  current : r.current source = r.here.offset
  start_le : r.start.offset ≤ r.here.offset
  reported_le : r.reported ≤ source.length + 1

/-! ### Outcomes -/

section Yields

variable {α β : Type} {x : Routine α} {f : α → Routine β} {s : State} {a : α}
  {Q : α → State → Prop} {R : β → State → Prop}

/-- A routine has an outcome from `s` on, one for which `Q` holds. -/
def Yields (x : Routine α) (s : State) (Q : α → State → Prop) : Prop :=
  ∃ a t, (a, t) ∈ x s ∧ Q a t

/-- A routine after another one starts from where that one ended. -/
theorem mem_bind_iff {b : β} {t : State} :
    (b, t) ∈ (x >>= f) s ↔ ∃ p ∈ x s, (b, t) ∈ f p.1 p.2 := by
  show (b, t) ∈ Part.bind (x s) (fun p ↦ f p.1 p.2) ↔ _
  exact Part.mem_bind_iff

theorem yields_pure (h : Q a s) : Yields (pure a) s Q := ⟨a, s, Part.mem_some _, h⟩

/-- If a routine has an outcome, and the next one has from any such, both together have one. -/
theorem Yields.bind (hx : Yields x s Q) (hf : ∀ a t, Q a t → Yields (f a) t R) :
    Yields (x >>= f) s R := by
  obtain ⟨a, t, hmem, hQ⟩ := hx
  obtain ⟨b, u, hmem', hR⟩ := hf a t hQ
  exact ⟨b, u, mem_bind_iff.2 ⟨_, hmem, hmem'⟩, hR⟩

/-- What is known to be the outcome can be taken for granted. -/
theorem yields_bind_of_mem {t : State} (h : (a, t) ∈ x s) (hf : Yields (f a) t R) :
    Yields (x >>= f) s R := by
  obtain ⟨b, u, hmem, hR⟩ := hf
  exact ⟨b, u, mem_bind_iff.2 ⟨_, h, hmem⟩, hR⟩

/-- A partial operation leaves the state alone. -/
theorem mem_liftM {o : Part α} (h : a ∈ o) : (a, s) ∈ (liftM o : Routine α) s := by
  show (a, s) ∈ Part.bind o fun a ↦ .some (a, s)
  exact Part.mem_bind_iff.2 ⟨a, h, Part.mem_some _⟩

theorem mem_modify (g : State → State) : ((), g s) ∈ (modify g : Routine Unit) s :=
  Part.mem_some _

theorem mem_registers : (s.registers, s) ∈ registers s :=
  mem_bind_iff.2 ⟨(s, s), Part.mem_some _, Part.mem_some _⟩

/-- One round ends a loop. -/
theorem mem_loop_of_inl {body : β → Routine (α ⊕ β)} {b : β} {t : State}
    (h : (.inl a, t) ∈ body b s) : (a, t) ∈ loop body b s :=
  PFun.fix_stop ((Part.mem_map_iff _).2 ⟨_, h, rfl⟩)

/-- One round leads to the rest of a loop. -/
theorem mem_loop_of_inr {body : β → Routine (α ⊕ β)} {b b' : β} {t u : State}
    (h : (.inr b', t) ∈ body b s) (hloop : (a, u) ∈ loop body b' t) : (a, u) ∈ loop body b s := by
  have hround : .inr (b', t) ∈ round body (b, s) := (Part.mem_map_iff _).2 ⟨_, h, rfl⟩
  have hfix : loop body b s = loop body b' t := PFun.fix_fwd_eq hround
  exact hfix ▸ hloop

/-- One round of a loop either ends it or leads to the next. -/
theorem yields_loop {body : β → Routine (α ⊕ β)} {b : β}
    (h : Yields (body b) s fun r t ↦ r.elim (Q · t) fun b ↦ Yields (loop body b) t Q) :
    Yields (loop body b) s Q := by
  obtain ⟨a | b', t, hmem, hr⟩ := h
  · exact ⟨a, t, mem_loop_of_inl hmem, hr⟩
  · obtain ⟨a, u, hloop, hQ⟩ := hr
    exact ⟨a, u, mem_loop_of_inr hmem hloop, hQ⟩

end Yields

/-! ### Places -/

variable {m : Machine} {s : State} {begun read rest : List Char} {reports : List Report}
  {trace : List TraceRecord} {finished : Bool}

/-- That a text is no number is reported only of the text of a number, which the machine refused. -/
def IsWarranted (m : Machine) : Problem → Prop
  | .malformedNumber text => Grammar.Number text.toList ∧ m.parse text = none
  | _ => True

/-- A state behind a text begun earlier and the part of the present piece that was read. All that
the machine did until then was in range. -/
structure State.IsAt (m : Machine) (begun read rest : List Char) (reports : List Report)
    (trace : List TraceRecord) (finished : Bool) (s : State) : Prop where
  source_eq : m.source.toList = begun ++ (read ++ rest)
  registers_eq : s.registers = ⟨rest, Position.start.after begun,
    Position.start.after (begun ++ read), reports.length, finished⟩
  reports_eq : s.reports = reports
  trace_eq : s.trace = trace
  length_reports_le : reports.length ≤ (begun ++ read).length
  visited : ∀ r ∈ s.visited, r.InRange m.source
  parsed : ∀ text ∈ s.parsed, Grammar.Number text.toList
  warranted : ∀ r ∈ reports, m.IsWarranted r.problem

/-- The registers are in range wherever they hold the place between two parts of the source. -/
theorem inRange_of_source {source : String} {n : Nat}
    (hsource : source.toList = begun ++ (read ++ rest)) (hn : n ≤ (begun ++ read).length) :
    Registers.InRange ⟨rest, Position.start.after begun, Position.start.after (begun ++ read), n,
      finished⟩ source := by
  have happend : source.toList = (begun ++ read) ++ rest := by rw [hsource, List.append_assoc]
  refine ⟨Position.isWithin_after hsource, Position.isWithin_after happend, ?_, ?_, ?_⟩
  · show (if rest = [] then source.utf8ByteSize else _) = _
    split
    · next hrest =>
      rw [offset_start_after, utf8ByteSize_eq happend, hrest, List.append_nil]
    · rfl
  · show (Position.start.after begun).offset ≤ (Position.start.after (begun ++ read)).offset
    rw [Position.after_append, Position.offset_after _ read]
    exact Nat.le_add_right _ _
  · show n ≤ source.length + 1
    rw [length_eq happend, List.length_append]
    omega

theorem State.IsAt.inRange (h : s.IsAt m begun read rest reports trace finished) :
    s.registers.InRange m.source :=
  h.registers_eq ▸ inRange_of_source h.source_eq h.length_reports_le

/-- The registers are at the place where they are set. -/
theorem State.IsAt.store (h : s.IsAt m begun read rest reports trace finished)
    {begun' read' rest' : List Char} {finished' : Bool}
    (hsource : m.source.toList = begun' ++ (read' ++ rest'))
    (hlength : (begun ++ read).length ≤ (begun' ++ read').length) :
    Yields (store ⟨rest', Position.start.after begun', Position.start.after (begun' ++ read'),
        reports.length, finished'⟩) s
      fun _ t ↦ t.IsAt m begun' read' rest' reports trace finished' := by
  have hle := h.length_reports_le.trans hlength
  refine ⟨_, _, mem_modify _, hsource, rfl, h.reports_eq, h.trace_eq, hle, ?_, h.parsed,
    h.warranted⟩
  refine List.forall_mem_append.2 ⟨h.visited, List.forall_mem_singleton.2 ?_⟩
  exact inRange_of_source hsource hle

/-! ### Sums, differences and slices -/

/-- There is room for the length of the source, and for one more. -/
def IsRoomy (m : Machine) : Prop := ∀ n ∈ m.capacity?, m.source.utf8ByteSize + 1 < n

/-- There is room for every sum up to the length of the source, and one more. -/
theorem mem_add (hm : m.IsRoomy) {a b : Nat} (h : a + b ≤ m.source.utf8ByteSize + 1) :
    a + b ∈ m.add a b :=
  Part.mem_assert (fun n hn ↦ Nat.lt_of_le_of_lt h (hm n hn)) (Part.mem_some _)

theorem mem_sub {a b : Nat} (h : b ≤ a) : a - b ∈ sub a b := Part.mem_assert h (Part.mem_some _)

/-- A slice between the ends of a text is the text. -/
theorem mem_slice {source : String} {before text after : List Char}
    (h : source.toList = before ++ (text ++ after)) :
    String.ofList text ∈ slice source (byteLength before) (byteLength (before ++ text)) := by
  have happend : source.toList = (before ++ text) ++ after := by rw [h, List.append_assoc]
  have hfirst := (Position.isWithin_after h).boundary
  have hstop := (Position.isWithin_after happend).boundary
  rw [offset_start_after] at hfirst hstop
  have hle : byteLength before ≤ byteLength (before ++ text) := by
    rw [byteLength_append]
    exact Nat.le_add_right _ _
  suffices hcopy : ∃ h, (source.slice (source.pos _ hfirst) (source.pos _ hstop) h).copy =
      String.ofList text from
    Part.mem_assert ⟨hfirst, hstop, hle⟩ (Part.mem_some_iff.2 hcopy.choose_spec.symm)
  refine String.copy_slice_eq_iff_splits.2 ⟨.ofList before, .ofList after, ⟨?_, ?_⟩, ⟨?_, ?_⟩⟩
  · rw [← String.ofList_append, ← String.ofList_append, ← h, String.ofList_toList]
  · rw [String.offset_pos, ← utf8ByteSize_ofList]
    rfl
  · rw [← String.ofList_append, ← String.ofList_append, ← happend, String.ofList_toList]
  · rw [String.offset_pos, ← String.ofList_append, ← utf8ByteSize_ofList]
    rfl

/-- An offset inside a character delimits nothing. -/
example : ¬ (slice "é" 0 1).Dom := fun h ↦ absurd h.1.2.1 (by decide)

/-! ### Characters -/

/-- A character is consumed, and the counts behind it fit into the registers. -/
theorem advance_yields (hm : m.IsRoomy) {c : Char}
    (h : s.IsAt m begun read (c :: rest) reports trace finished) :
    Yields m.advance s fun c? t ↦
      c? = some c ∧ t.IsAt m begun (read ++ [c]) rest reports trace finished := by
  have hsource : m.source.toList = begun ++ ((read ++ [c]) ++ rest) := by
    rw [h.source_eq, List.append_assoc, List.singleton_append]
  have hstop : Position.start.after (begun ++ (read ++ [c])) =
      (Position.start.after (begun ++ read)).step c := by
    rw [← List.append_assoc, Position.after_append _ (begun ++ read), Position.after_cons,
      Position.after_nil]
  have hstore : Yields (store _) s fun _ t ↦
      t.IsAt m begun (read ++ [c]) rest reports trace finished :=
    h.store hsource (by simp)
  -- the sums are those of the position behind `c`, which the registers can hold
  have hwithin : (Position.start.after (begun ++ (read ++ [c]))).IsWithin m.source :=
    Position.isWithin_after (hsource.trans (List.append_assoc ..).symm)
  have hlength := Nat.succ_le_succ (length_le_utf8ByteSize m.source)
  rw [hstop] at hstore hwithin
  refine yields_bind_of_mem mem_registers ?_
  rw [h.registers_eq]
  have hoffset := hwithin.offset_le
  rw [Position.offset_step] at hoffset
  refine yields_bind_of_mem (mem_liftM (mem_add hm (Nat.le_succ_of_le hoffset))) ?_
  split
  · next hc =>
    rw [Position.step, if_pos hc] at hstore hwithin
    have hline := hwithin.line_le.trans hlength
    refine yields_bind_of_mem (mem_liftM (mem_add hm hline)) (hstore.bind fun _ t ht ↦ ?_)
    exact yields_pure ⟨rfl, ht⟩
  · next hc =>
    rw [Position.step, if_neg hc] at hstore hwithin
    have hcolumn := hwithin.column_le.trans hlength
    refine yields_bind_of_mem (mem_liftM (mem_add hm hcolumn)) (hstore.bind fun _ t ht ↦ ?_)
    exact yields_pure ⟨rfl, ht⟩

/-- At the end nothing is consumed. -/
theorem advance_yields_of_end (h : s.IsAt m begun read [] reports trace finished) :
    (none, s) ∈ m.advance s := by
  refine mem_bind_iff.2 ⟨_, mem_registers, ?_⟩
  rw [h.registers_eq]
  exact Part.mem_some _

/-- **A run of characters is consumed as a whole**, up to one at which to stop or to the end. By
induction on the run. -/
theorem advanceUntil_yields (hm : m.IsRoomy) {stops : Char → Bool} {run : List Char}
    (h : s.IsAt m begun read (run ++ rest) reports trace finished) (hrun : ∀ c ∈ run, ¬ stops c)
    (hrest : ∀ c ∈ rest.head?, stops c) :
    Yields (m.advanceUntil stops) s fun _ t ↦
      t.IsAt m begun (read ++ run) rest reports trace finished := by
  induction run generalizing s read with
  | nil =>
    rw [List.append_nil]
    refine yields_loop (yields_bind_of_mem mem_registers ?_)
    rw [h.registers_eq, List.nil_append]
    cases rest with
    | nil => exact yields_pure h
    | cons c rest =>
      dsimp only
      rw [if_pos (hrest c rfl)]
      exact yields_pure h
  | cons c run ih =>
    obtain ⟨hc, hrun⟩ := List.forall_mem_cons.1 hrun
    refine yields_loop (yields_bind_of_mem mem_registers ?_)
    rw [h.registers_eq, List.cons_append]
    dsimp only
    rw [if_neg hc, List.append_cons]
    exact (advance_yields hm h).bind fun _ t ht ↦ yields_pure (ih ht.2 hrun)

/-- A character is skipped exactly if it is the one that comes next. -/
theorem skip_yields (hm : m.IsRoomy) (c : Char)
    (h : s.IsAt m begun read rest reports trace finished) :
    Yields (m.skip c) s fun b t ↦
      (∃ more, rest = c :: more ∧ b = true ∧
          t.IsAt m begun (read ++ [c]) more reports trace finished) ∨
        (rest.head? ≠ some c ∧ b = false ∧ t.IsAt m begun read rest reports trace finished) := by
  refine yields_bind_of_mem mem_registers ?_
  rw [h.registers_eq]
  dsimp only
  split
  · next hc =>
    obtain ⟨more, rfl⟩ := List.head?_eq_some_iff.1 hc
    refine (advance_yields hm h).bind fun c? t ht ↦ yields_pure ?_
    exact .inl ⟨more, rfl, rfl, ht.2⟩
  · next hc => exact yields_pure (.inr ⟨hc, rfl, h⟩)

/-! ### Tokens and reports -/

/-- The piece begins as many bytes into the source as were passed over before it. -/
theorem State.IsAt.offset_start (h : s.IsAt m begun read rest reports trace finished) :
    s.registers.start.offset = byteLength begun := by
  rw [h.registers_eq, offset_start_after]

/-- The next character is as many bytes into the source as were passed over, at its end as well. -/
theorem State.IsAt.current (h : s.IsAt m begun read rest reports trace finished) :
    s.registers.current m.source = byteLength (begun ++ read) := by
  rw [h.inRange.current, h.registers_eq, offset_start_after]

/-- The lexeme is what was read of the present piece, and taking it out changes nothing. -/
theorem mem_lexeme (h : s.IsAt m begun read rest reports trace finished) :
    (String.ofList read, s) ∈ m.lexeme s := by
  refine mem_bind_iff.2 ⟨_, mem_registers, mem_liftM ?_⟩
  rw [h.current, h.offset_start]
  exact mem_slice h.source_eq

/-- A token is made of what was read of the present piece. -/
theorem token_yields (h : s.IsAt m begun read rest reports trace finished) (kind : Token.Kind)
    (literal : Option Literal) :
    Yields (m.token kind literal) s fun t? t ↦
      t? = some ⟨kind, String.ofList read, literal, Position.start.after begun⟩ ∧ t = s := by
  refine yields_bind_of_mem (mem_lexeme h) (yields_bind_of_mem mem_registers ?_)
  rw [h.registers_eq]
  exact yields_pure ⟨rfl, rfl⟩

/-- Records leave the machine at its place. -/
theorem tell_yields (h : s.IsAt m begun read rest reports trace finished) (x : TraceRecord) :
    Yields (m.tell x) s fun _ t ↦
      t.IsAt m begun read rest reports (trace ++ x.told m.verbosity?) finished :=
  ⟨(), _, mem_modify _, { h with trace_eq := congrArg (· ++ _) h.trace_eq }⟩

/-- A report is made at most once behind each character, and told of before. -/
theorem report_yields (hm : m.IsRoomy) (h : s.IsAt m begun read rest reports trace finished)
    (hfew : reports.length < (begun ++ read).length) {problem : Problem}
    (hproblem : m.IsWarranted problem) :
    Yields (m.report problem) s fun t? t ↦ t? = none ∧
      t.IsAt m begun read rest
        (reports ++ [⟨(Position.start.after (begun ++ read)).line, problem⟩])
        (trace ++ toldOf m.verbosity? [⟨(Position.start.after (begun ++ read)).line, problem⟩])
        finished := by
  have hlength : (begun ++ read).length ≤ m.source.length := by
    have happend : m.source.toList = (begun ++ read) ++ rest := by
      rw [h.source_eq, List.append_assoc]
    rw [length_eq happend, @List.length_append _ _ rest]
    exact Nat.le_add_right _ _
  have hbytes := length_le_utf8ByteSize m.source
  refine yields_bind_of_mem mem_registers ?_
  rw [h.registers_eq]
  refine yields_bind_of_mem (mem_modify _) ?_
  refine yields_bind_of_mem (mem_liftM (mem_add hm (by dsimp only; omega))) ?_
  refine yields_bind_of_mem (mem_modify _) (yields_bind_of_mem (mem_modify _) (yields_pure ?_))
  have htrace (r : Report) : s.trace ++ r.record.told m.verbosity? =
      trace ++ toldOf m.verbosity? [r] := by
    rw [toldOf_singleton, h.trace_eq]
  refine ⟨rfl, h.source_eq, by simp, congrArg (· ++ _) h.reports_eq, htrace ⟨_, problem⟩,
    by rwa [List.length_append], ?_, h.parsed, ?_⟩
  · refine List.forall_mem_append.2 ⟨h.visited, List.forall_mem_singleton.2 ?_⟩
    exact inRange_of_source h.source_eq hfew
  · exact List.forall_mem_append.2 ⟨h.warranted, List.forall_mem_singleton.2 hproblem⟩

end Machine

end LoxLexer
