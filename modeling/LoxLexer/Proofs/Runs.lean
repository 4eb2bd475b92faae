import Mathlib.Data.List.TakeWhile

/-!
# Runs of a class of characters

The reader cuts most pieces at the end of a run: the longest stretch of characters of one class at
the head of a text. A run ends exactly where its class does (`takeWhile_append_of_stop`), so runs
can be described without the function that takes them. Strings and comments are runs up to one
character, whose class is all the others (`takeWhile_ne_append`).
-/

namespace LoxLexer

variable {α : Type} {p : α → Bool}

/-! ### Where a run ends -/

/-- A run is taken whole if what stands behind it is not in the class. -/
theorem takeWhile_append_of_stop {run rest : List α} (hrun : ∀ a ∈ run, p a)
    (hrest : ∀ a ∈ rest.head?, ¬ p a) : (run ++ rest).takeWhile p = run := by
  rw [List.takeWhile_append_of_pos hrun]
  cases rest with
  | nil => simp
  | cons a rest => simp [hrest a rfl]

/-- What stands behind a run is left. -/
theorem dropWhile_append_of_stop {run rest : List α} (hrun : ∀ a ∈ run, p a)
    (hrest : ∀ a ∈ rest.head?, ¬ p a) : (run ++ rest).dropWhile p = rest := by
  rw [List.dropWhile_append_of_pos hrun]
  cases rest with
  | nil => rfl
  | cons a rest => exact List.dropWhile_cons_of_neg (hrest a rfl)

/-- Behind a run stands a character outside the class, or nothing. -/
theorem not_of_mem_head?_dropWhile {s : List α} : ∀ a ∈ (s.dropWhile p).head?, ¬ p a := by
  intro a ha
  have h := List.head?_dropWhile_not p s
  rw [Option.mem_def.1 ha] at h
  simpa using h

/-- A prefix inside the class lies in the run. -/
theorem prefix_takeWhile {s u : List α} (h : u <+: s) (hu : ∀ a ∈ u, p a) :
    u <+: s.takeWhile p := by
  obtain ⟨rest, rfl⟩ := h
  rw [List.takeWhile_append_of_pos hu]
  exact List.prefix_append _ _

/-! ### Runs up to a character -/

variable [DecidableEq α] {a : α}

theorem not_mem_takeWhile_ne (a : α) (s : List α) : a ∉ s.takeWhile (· ≠ a) := fun h ↦ by
  simpa using List.mem_takeWhile_imp h

theorem eq_of_mem_head?_dropWhile_ne {s : List α} : ∀ b ∈ (s.dropWhile (· ≠ a)).head?, b = a :=
  fun b hb ↦ by simpa using not_of_mem_head?_dropWhile b hb

/-- A run up to a character is taken whole. -/
theorem takeWhile_ne_append {run rest : List α} (hrun : a ∉ run)
    (hrest : ∀ b ∈ rest.head?, b = a) : (run ++ rest).takeWhile (· ≠ a) = run :=
  takeWhile_append_of_stop (fun b hb ↦ by simpa using ne_of_mem_of_not_mem hb hrun)
    fun b hb ↦ by simpa using hrest b hb

/-- Behind a run up to a character the text goes on with that character. -/
theorem dropWhile_ne_append {run rest : List α} (hrun : a ∉ run)
    (hrest : ∀ b ∈ rest.head?, b = a) : (run ++ rest).dropWhile (· ≠ a) = rest :=
  dropWhile_append_of_stop (fun b hb ↦ by simpa using ne_of_mem_of_not_mem hb hrun)
    fun b hb ↦ by simpa using hrest b hb

end LoxLexer
