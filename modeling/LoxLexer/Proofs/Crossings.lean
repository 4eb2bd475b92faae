import LoxLexer.Fault
import Mathlib.Data.List.Induction

/-!
# Forms of a fault

However often a fault crosses the boundary, it takes three forms at most: the one it came up in, one
outside and one inside. Either side knows one failure only, and that is the failure which the fault
amounts to outside (`Origin.outer`), so wrappers do not pile up.

The invariant is exact. Until a crossing takes effect the fault is untouched, and from then on the
last crossing tells its form (`Origin.formAfter`). One crossing either starts this or replaces the
last (`cross_passage`, `cross_side`), and a series is an induction over its crossings
(`after_eq_formAfter`).
-/

namespace LoxLexer

/-! ### Where a series of crossings leads -/

namespace Passage

/-- The form after a series of crossings. -/
def after (x : Passage) (cs : List Crossing) : Passage := cs.foldl cross x

/-- The last crossing is made from where the others lead. -/
theorem after_concat (x : Passage) (cs : List Crossing) (c : Crossing) :
    x.after (cs ++ [c]) = (x.after cs).cross c := List.foldl_append

/-- There is one form more than there are crossings. -/
theorem length_forms (x : Passage) (cs : List Crossing) :
    (x.forms cs).length = cs.length + 1 := by
  induction cs generalizing x with
  | nil => rfl
  | cons c cs ih => rw [forms, List.length_cons, ih, List.length_cons]

/-- The form with number `i` is the one after `i` crossings. -/
theorem getElem?_forms (x : Passage) {cs : List Crossing} {i : Nat} (hi : i ≤ cs.length) :
    (x.forms cs)[i]? = some (x.after (cs.take i)) := by
  induction cs generalizing x i with
  | nil =>
    obtain rfl := Nat.le_zero.1 hi
    rfl
  | cons c cs ih =>
    cases i with
    | zero => rfl
    | succ i => exact ih (x.cross c) (Nat.le_of_succ_le_succ hi)

/-- What a fault displays in the form that it has. -/
def display : Passage → String
  | inside fault => fault.display
  | outside failure => failure.display

end Passage

/-! ### Origins -/

/-- Where a fault comes up: inside, as a lexical one, or outside, as a failure that carries none. -/
inductive Origin
  | lexical (line : Nat) (message : String)
  | plain (failure : IoFault) (h : failure.isCarrying = false)

namespace Origin

/-- The fault in the form that it comes up in. -/
def passage : Origin → Passage
  | lexical line message => .inside (.lexical line message)
  | plain failure _ => .outside failure

/-- The failure that the fault amounts to outside. -/
def outer : Origin → IoFault
  | lexical line message => .carrying (.lexical line message)
  | plain failure _ => failure

def isLexical : Origin → Bool
  | lexical .. => true
  | plain .. => false

/-- The kind of the failure that comes up, and of a lexical fault the kind for all that is none. -/
def kind : Origin → IoKind
  | lexical .. => .other
  | plain failure _ => failure.kind

/-- The crossing that takes the fault from where it comes up. -/
def leaving : Origin → Crossing
  | lexical .. => .outward
  | plain .. => .inward

/-- The form on the far side of a crossing. -/
def side (o : Origin) : Crossing → Passage
  | .outward => .outside o.outer
  | .inward => .inside (.ofIo o.outer)

/-- The form after some crossings: that on the far side of the last, once one has taken effect. -/
def formAfter (o : Origin) (cs : List Crossing) : Passage :=
  if o.leaving ∈ cs then (cs.getLast?.map o.side).getD o.passage else o.passage

variable (o : Origin) {cs : List Crossing} {c : Crossing}

/-! ### The two forms met after a crossing -/

/-- Outside, a fault displays what it does where it comes up. -/
theorem display_outer : o.outer.display = o.passage.display := by
  cases o <;> rfl

/-- Inside, it displays the same behind a prefix. -/
theorem display_ofIo_outer :
    (Fault.ofIo o.outer).display = "IO error: " ++ o.passage.display := by
  show "IO error: " ++ o.outer.display = _
  rw [display_outer]

/-- Outside, a fault is of the kind that it has where it comes up. -/
theorem kind_outer : o.outer.kind = o.kind := by
  cases o <;> rfl

/-- Outside, a failure carries a fault exactly if that is lexical. -/
theorem isCarrying_outer : o.outer.isCarrying = o.isLexical := by
  cases o with
  | lexical line message => rfl
  | plain failure h => exact h

/-- Behind the failure outside there is no other fault. -/
theorem sources_outer : o.outer.sources = [] := by
  obtain ⟨line, message⟩ | ⟨kind | e | payload, h⟩ := o
  · rfl
  · rfl
  · rfl
  · cases h

theorem passage_ne_outside (h : o.isLexical) {failure : IoFault} :
    o.passage ≠ .outside failure := by
  intro hpassage
  cases o with
  | lexical line message => cases hpassage
  | plain failure' _ => cases h

/-! ### Crossings -/

/-- The first crossing that takes effect is the one that leaves the origin. -/
theorem cross_passage (c : Crossing) :
    o.passage.cross c = if c = o.leaving then o.side c else o.passage := by
  cases o <;> cases c <;> rfl

/-- After that only the last crossing counts. -/
theorem cross_side (c d : Crossing) : (o.side c).cross d = o.side d := by
  cases c <;> cases d <;> rfl

theorem formAfter_of_not_mem (h : o.leaving ∉ cs) : o.formAfter cs = o.passage := if_neg h

theorem formAfter_concat_of_mem (h : o.leaving ∈ cs ++ [c]) :
    o.formAfter (cs ++ [c]) = o.side c := by
  rw [formAfter, if_pos h, List.getLast?_concat]
  rfl

/-- A form is untouched, or it is one of those met after a crossing. -/
theorem formAfter_cases (cs : List Crossing) :
    (o.leaving ∉ cs ∧ o.formAfter cs = o.passage) ∨ ∃ c, o.formAfter cs = o.side c := by
  by_cases h : o.leaving ∈ cs
  · obtain ⟨cs, c, rfl⟩ := List.eq_nil_or_concat cs |>.resolve_left (List.ne_nil_of_mem h)
    rw [List.concat_eq_append] at h ⊢
    exact .inr ⟨c, o.formAfter_concat_of_mem h⟩
  · exact .inl ⟨h, o.formAfter_of_not_mem h⟩

/-- **A series of crossings**, by induction from its end. -/
theorem after_eq_formAfter (cs : List Crossing) : o.passage.after cs = o.formAfter cs := by
  induction cs using List.reverseRecOn with
  | nil => rfl
  | append_singleton cs c ih =>
    rw [Passage.after_concat, ih]
    by_cases hc : o.leaving ∈ cs ++ [c]
    · rw [o.formAfter_concat_of_mem hc]
      obtain ⟨hcs, hform⟩ | ⟨d, hform⟩ := o.formAfter_cases cs
      · -- the last crossing is the first to take effect
        have hleaving : c = o.leaving := by simpa [hcs, eq_comm] using hc
        rw [hform, o.cross_passage, if_pos hleaving]
      · rw [hform, o.cross_side]
    · have hcs : o.leaving ∉ cs := fun h ↦ hc (List.mem_append_left _ h)
      have hleaving : c ≠ o.leaving := fun h ↦ hc (by simp [h])
      rw [o.formAfter_of_not_mem hc, o.formAfter_of_not_mem hcs, o.cross_passage,
        if_neg hleaving]

/-- There are three forms: that of a lexical fault which has not left, and one on either side. -/
theorem formAfter_eq_or (cs : List Crossing) :
    (o.isLexical ∧ o.leaving ∉ cs ∧ o.formAfter cs = o.passage) ∨
      o.formAfter cs = .outside o.outer ∨ o.formAfter cs = .inside (.ofIo o.outer) := by
  obtain ⟨hmem, hform⟩ | ⟨c, hform⟩ := o.formAfter_cases cs
  · cases o with
    | lexical line message => exact .inl ⟨rfl, hmem, hform⟩
    | plain failure _ => exact .inr (.inl hform)
  · cases c with
    | outward => exact .inr (.inl hform)
    | inward => exact .inr (.inr hform)

/-- Each form is told by the crossings before it. -/
theorem getElem?_forms_passage {i : Nat} (hi : i ≤ cs.length) :
    (o.passage.forms cs)[i]? = some (o.formAfter (cs.take i)) := by
  rw [o.passage.getElem?_forms hi, o.after_eq_formAfter]

theorem formAfter_of_getElem? {i : Nat} {x : Passage} (h : (o.passage.forms cs)[i]? = some x) :
    i ≤ cs.length ∧ o.formAfter (cs.take i) = x := by
  obtain ⟨hi, -⟩ := List.getElem?_eq_some_iff.1 h
  rw [Passage.length_forms] at hi
  have hle := Nat.le_of_lt_succ hi
  exact ⟨hle, Option.some.inj ((o.getElem?_forms_passage hle).symm.trans h)⟩

/-- Outside there is one form. -/
theorem eq_outer_of_getElem? {i : Nat} {failure : IoFault}
    (h : (o.passage.forms cs)[i]? = some (.outside failure)) : failure = o.outer := by
  obtain ⟨-, hform⟩ := o.formAfter_of_getElem? h
  obtain ⟨hlexical, -, hstart⟩ | houtside | hinside := o.formAfter_eq_or (cs.take i)
  · exact absurd (hstart.symm.trans hform) (o.passage_ne_outside hlexical)
  · exact Passage.outside.inj (hform.symm.trans houtside)
  · exact Passage.noConfusion (hinside.symm.trans hform)

/-- Inside there is one form besides that of a lexical fault nothing has happened to. -/
theorem untouched_or_eq_ofIo_of_getElem? {i : Nat} {fault : Fault}
    (h : (o.passage.forms cs)[i]? = some (.inside fault)) :
    (o.isLexical ∧ o.leaving ∉ cs.take i ∧ ∀ j ≤ i, (o.passage.forms cs)[j]? = some o.passage) ∨
      fault = .ofIo o.outer := by
  obtain ⟨hi, hform⟩ := o.formAfter_of_getElem? h
  obtain ⟨hlexical, hmem, -⟩ | houtside | hinside := o.formAfter_eq_or (cs.take i)
  · refine .inl ⟨hlexical, hmem, fun j hj ↦ ?_⟩
    rw [o.getElem?_forms_passage (Nat.le_trans hj hi), o.formAfter_of_not_mem]
    exact fun hj' ↦ hmem (List.take_subset_take_left cs hj hj')
  · exact Passage.noConfusion (houtside.symm.trans hform)
  · exact .inr (Passage.inside.inj (hform.symm.trans hinside))

/-- One prefix at most comes before what the start displays. -/
theorem display_of_mem_forms {x : Passage} (h : x ∈ o.passage.forms cs) :
    x.display = o.passage.display ∨ x.display = "IO error: " ++ o.passage.display := by
  obtain ⟨i, hi⟩ := List.mem_iff_getElem?.1 h
  obtain ⟨-, rfl⟩ := o.formAfter_of_getElem? hi
  obtain ⟨-, -, hform⟩ | hform | hform := o.formAfter_eq_or (cs.take i)
  · exact .inl (congrArg _ hform)
  · exact .inl ((congrArg _ hform).trans o.display_outer)
  · exact .inr ((congrArg _ hform).trans o.display_ofIo_outer)

end Origin

/-- **Crossings neither nest nor lose a fault.** A series has a form before it and one after each of
its steps: the start until a step takes effect, and then the one that the last step leads to.
Outside, every form displays what the start does, is of its kind, and carries a fault if and only if
the start is lexical. Inside, a form is a lexical start that no step has touched, or else a fault of
input and output right before the start. What comes in goes out again as it was; what goes out comes
in again as it was unless it is lexical. -/
theorem forms_settle (o : Origin) (steps : List Crossing) :
    (o.passage.forms steps).length = steps.length + 1 ∧
    (∀ i ≤ steps.length, (o.passage.forms steps)[i]? = some (o.formAfter (steps.take i))) ∧
    (∀ (i : Nat) (failure : IoFault), (o.passage.forms steps)[i]? = some (.outside failure) →
      failure.display = o.passage.display ∧ failure.kind = o.kind ∧
        failure.isCarrying = o.isLexical) ∧
    (∀ (i : Nat) (fault : Fault), (o.passage.forms steps)[i]? = some (.inside fault) →
      (o.isLexical ∧ o.leaving ∉ steps.take i ∧
          ∀ j ≤ i, (o.passage.forms steps)[j]? = some o.passage) ∨
        ((∃ cause, fault = .io cause) ∧ fault.line? = none ∧ fault.message = "IO error" ∧
          fault.display = "IO error: " ++ o.passage.display ∧
          fault.sources = [o.passage.display])) ∧
    (∀ x ∈ o.passage.forms steps,
      x.display = o.passage.display ∨ x.display = "IO error: " ++ o.passage.display) ∧
    (∀ cause : IoFault, (Fault.ofIo cause).toIo = cause) ∧
    (∀ cause : IoFault, Fault.ofIo (Fault.io cause).toIo = .io cause) ∧
    ∀ (line : Nat) (message : String),
      Fault.ofIo (Fault.lexical line message).toIo ≠ .lexical line message := by
  refine ⟨Passage.length_forms _ steps, fun i ↦ o.getElem?_forms_passage, fun i failure h ↦ ?_,
    fun i fault h ↦ (o.untouched_or_eq_ofIo_of_getElem? h).imp_right ?_,
    fun x ↦ o.display_of_mem_forms, Fault.toIo_ofIo, fun _ ↦ rfl, fun line message h ↦ ?_⟩
  · obtain rfl := o.eq_outer_of_getElem? h
    exact ⟨o.display_outer, o.kind_outer, o.isCarrying_outer⟩
  · rintro rfl
    refine ⟨⟨o.outer, rfl⟩, rfl, rfl, o.display_ofIo_outer, ?_⟩
    show o.outer.display :: o.outer.sources = _
    rw [o.display_outer, o.sources_outer]
  · exact Fault.noConfusion h

end LoxLexer
