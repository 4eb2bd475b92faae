import LoxLexer.Proofs.PartialOutput
import Mathlib.Data.List.DropRight

/-!
# What a console remembers

A console remembers that there were reports, on whatever sinks it prints. It notes the reports of a
run between printing them and printing the listing, so what becomes of the listing is of no account
(`sawReports_run`). After any history it has seen reports exactly if some run since it last forgot
them had reports and wrote all the lines that tell of them. This is an induction from the end of the
history (`sawReports_after`), where the last turn decides: forgetting empties what is kept of the
history, and a run adds itself to it.
-/

namespace LoxLexer

/-- A chunk is written in full exactly if its write does not fail. -/
theorem Sink.bytes_write_eq_iff (s : Sink) (chunk : Bytes) :
    (s.write chunk).bytes = chunk ↔ (s.write chunk).failure? = none := by
  rcases h : s.room? with - | room
  · rw [write_of_room?_eq_none h]
    exact iff_of_true rfl rfl
  · rw [write_of_room?_eq_some h, List.take_eq_self_iff]
    by_cases hle : chunk.length ≤ room
    · exact iff_of_true hle (if_pos hle)
    · exact iff_of_false hle (by rw [if_neg hle]; exact Option.some_ne_none _)

namespace Console

/-! ### One run -/

theorem reportLines_isEmpty (source : String) :
    (reportLines source).isEmpty = (lex source).reports.isEmpty := List.isEmpty_map

/-- **A run** adds to what was noted before exactly if it has reports and writes all the lines that
tell of them. -/
theorem sawReports_run (c : Console) (source : String) :
    (c.run source).console.sawReports =
      (c.sawReports ||
        decide ((lex source).reports ≠ [] ∧ (c.run source).err = reportText source)) := by
  rcases h : (c.err.write (reportText source)).failure? with - | f
  · have hbytes := (Sink.bytes_write_eq_iff _ _).2 h
    rw [run_of_no_failure h]
    show (c.sawReports || !(reportLines source).isEmpty) = _
    rw [reportLines_isEmpty, hbytes]
    rcases (lex source).reports with - | ⟨r, more⟩ <;> simp
  · have hbytes : (c.err.write (reportText source)).bytes ≠ reportText source := fun hall ↦
      absurd ((Sink.bytes_write_eq_iff _ _).1 hall) (by simp [h])
    rw [run_of_failure h]
    show c.sawReports = _
    rw [decide_eq_false fun hall ↦ hbytes hall.2, Bool.or_false]

/-- The output has no part in what is noted. -/
theorem sawReports_run_of_out (c : Console) (source : String) (out : Sink) :
    ({ c with out := out }.run source).console.sawReports =
      (c.run source).console.sawReports := by
  rcases h : (c.err.write (reportText source)).failure? with - | f
  · rw [run_of_no_failure h, run_of_no_failure (c := { c with out := out }) h]
  · rw [run_of_failure h, run_of_failure (c := { c with out := out }) h]

/-! ### Histories -/

/-- The console that a history leaves behind. -/
def after (c : Console) (acts : List Act) : Console := acts.foldl (fun d a ↦ (d.act a).console) c

theorem after_concat (c : Console) (acts : List Act) (a : Act) :
    c.after (acts ++ [a]) = ((c.after acts).act a).console := List.foldl_concat ..

theorem length_turns (c : Console) (acts : List Act) : (c.turns acts).length = acts.length := by
  induction acts generalizing c with
  | nil => rfl
  | cons a more ih => rw [turns, List.length_cons, List.length_cons, ih]

/-- The last turn starts from the console that the others leave behind. -/
theorem turns_concat (c : Console) (acts : List Act) (a : Act) :
    c.turns (acts ++ [a]) = c.turns acts ++ [(c.after acts).act a] := by
  induction acts generalizing c with
  | nil => rfl
  | cons b more ih =>
    rw [List.cons_append, turns, turns, ih, List.cons_append]
    rfl

/-- The turns of the first steps of a history are the first of its turns. -/
theorem take_turns (c : Console) (acts : List Act) (n : Nat) :
    (c.turns acts).take n = c.turns (acts.take n) := by
  induction acts generalizing c n with
  | nil => rw [List.take_nil, turns, List.take_nil]
  | cons a more ih =>
    rcases n with - | n
    · rfl
    · rw [turns, List.take_succ_cons, List.take_succ_cons, turns, ih]

/-- Every turn leaves the console behind that the history up to it does. -/
theorem console_of_getElem?_turns {c : Console} {acts : List Act} {n : Nat} {t : Turn}
    (h : (c.turns acts)[n]? = some t) : t.console = c.after (acts.take (n + 1)) := by
  induction acts generalizing c n with
  | nil => simp [turns] at h
  | cons a more ih =>
    rw [turns] at h
    rcases n with - | n
    · cases h
      rfl
    · exact ih h

/-- The steps of a history since the console last forgot its reports. -/
def sinceClear (history : List (Act × Turn)) : List (Act × Turn) :=
  history.rtakeWhile fun step ↦ step.1 ≠ .clear

/-- The step is a run that has reports and wrote all the lines that tell of them. -/
def ReportsFully (step : Act × Turn) : Prop :=
  ∃ source, step.1 = .run source ∧ (lex source).reports ≠ [] ∧ step.2.err = reportText source

/-- **Any history**, by induction from its end. -/
theorem sawReports_after (out err : Sink) (acts : List Act) :
    ((ofSinks out err).after acts).sawReports ↔
      ∃ step ∈ sinceClear (acts.zip ((ofSinks out err).turns acts)), ReportsFully step := by
  induction acts using List.reverseRecOn with
  | nil => simp [after, ofSinks, sinceClear]
  | append_singleton acts a ih =>
    rw [after_concat, turns_concat, List.zip_append (length_turns _ _).symm]
    generalize (ofSinks out err).after acts = c at ih ⊢
    generalize acts.zip ((ofSinks out err).turns acts) = history at ih ⊢
    rcases a with source | -
    · -- a run is one more step to look at
      have hstep : ReportsFully (.run source, c.act (.run source)) ↔
          (lex source).reports ≠ [] ∧ (c.run source).err = reportText source := by
        refine ⟨?_, fun h ↦ ⟨source, rfl, h⟩⟩
        rintro ⟨source, ⟨⟩, h⟩
        exact h
      rw [sinceClear, List.zip_cons_cons, List.zip_nil_right,
        List.rtakeWhile_concat_pos _ _ _ (by simp)]
      show (c.run source).console.sawReports ↔ ∃ step ∈ sinceClear history ++ [_], _
      rw [sawReports_run, Bool.or_eq_true, decide_eq_true_eq, ih, ← hstep]
      simp only [List.mem_append, List.mem_singleton, or_and_right, exists_or, exists_eq_left]
    · -- behind this step nothing is left to look at
      rw [sinceClear, List.zip_cons_cons, List.zip_nil_right,
        List.rtakeWhile_concat_neg _ _ _ (by simp)]
      simp [act, clear]

/-- **The memory of a console.** After every step of a history, on whatever sinks, the console has
seen reports exactly if, since it last forgot them, some run had reports and wrote all the lines
that tell of them. A run adds nothing to what was noted before unless it does so itself, and the
output has no part in it; forgetting changes nothing else. -/
theorem sawReports_turns (out err : Sink) (acts : List Act) :
    let ts := (ofSinks out err).turns acts
    ts.length = acts.length ∧
      (∀ n t, ts[n]? = some t → (t.console.sawReports ↔
        ∃ step ∈ sinceClear ((acts.zip ts).take (n + 1)), ReportsFully step)) ∧
      (∀ (c : Console) (source : String),
        ((lex source).reports = [] ∨ (c.run source).err ≠ reportText source →
          (c.run source).console.sawReports = c.sawReports) ∧
        ∀ other : Sink, ({ c with out := other }.run source).console.sawReports =
          (c.run source).console.sawReports) ∧
      ∀ c : Console, c.act .clear = ⟨[], [], none, { c with sawReports := false }⟩ := by
  refine ⟨length_turns _ acts, fun n t ht ↦ ?_, fun c source ↦ ⟨fun h ↦ ?_, ?_⟩, fun _ ↦ rfl⟩
  · have htake : (acts.zip ((ofSinks out err).turns acts)).take (n + 1) =
        (acts.take (n + 1)).zip ((ofSinks out err).turns (acts.take (n + 1))) := by
      rw [← take_turns]
      exact List.take_zipWith
    rw [console_of_getElem?_turns ht, sawReports_after, htake]
  · have hnone : ¬ ((lex source).reports ≠ [] ∧ (c.run source).err = reportText source) :=
      fun hall ↦ h.elim hall.1 fun hne ↦ hne hall.2
    rw [sawReports_run, decide_eq_false hnone, Bool.or_false]
  · exact sawReports_run_of_out c source

end Console

end LoxLexer
