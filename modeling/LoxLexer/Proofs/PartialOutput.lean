import LoxLexer.Console.Basic
import Mathlib.Data.List.Forall2
import Mathlib.Data.List.TakeDrop

/-!
# Output that is cut short

What arrives of all that a console prints, over any history, if its sinks have room for so many
bytes each? The error output gets as much of all the reports as it has room for. The output is cut
in the same way, but of another text: a turn whose reports did not all arrive owes it nothing
(`Turn.owed`).

* A run writes two texts, the second if the first was written completely (`run_of_failure`,
  `run_of_no_failure`). That is all there is to know about a run, whatever the sinks are.
* With room for so many bytes a turn writes the part of each text that fits, and leaves the room
  that is left (`act_of_hasRoom`). So a history is an induction over its turns
  (`turns_of_hasRoom`), where cutting a text off goes on behind what is written already.
-/

namespace LoxLexer

namespace Console

/-! ### What there is to print -/

/-- The lines of a source's reports put together. -/
def reportText (source : String) : Bytes := (reportLines source).flatten

/-- The rows of a source's tokens put together. -/
def listing (source : String) : Bytes := (tokenRows source).flatten

namespace Act

/-- What an act has to print on the error output. -/
def errText : Act → Bytes
  | run source => reportText source
  | clear => []

/-- What an act has to print on the output. -/
def outText : Act → Bytes
  | run source => listing source
  | clear => []

end Act

/-! ### One run -/

variable {c : Console} {source : String}

/-- A run whose reports are not all written ends there. -/
theorem run_of_failure {f : IoFault} (h : (c.err.write (reportText source)).failure? = some f) :
    c.run source =
      ⟨[], (c.err.write (reportText source)).bytes, some (.ofIo f),
        { c with err := (c.err.write (reportText source)).sink }⟩ := by
  have hfault : (c.printErr (reportLines source)).fault? = some (.ofIo f) := by
    rw [printErr, Sink.writeAll_eq_write]
    exact congrArg (Option.map Fault.ofIo) h
  rw [run, Turn.andThen_of_fault hfault, printErr, Sink.writeAll_eq_write, ← reportText, h]
  rfl

/-- A run whose reports are all written notes them and goes on with the listing. -/
theorem run_of_no_failure (h : (c.err.write (reportText source)).failure? = none) :
    c.run source =
      ⟨(c.out.write (listing source)).bytes, (c.err.write (reportText source)).bytes,
        (c.out.write (listing source)).failure?.map .ofIo,
        ⟨(c.out.write (listing source)).sink, (c.err.write (reportText source)).sink,
          c.sawReports || !(reportLines source).isEmpty⟩⟩ := by
  have hfault : (c.printErr (reportLines source)).fault? = none := by
    rw [printErr, Sink.writeAll_eq_write]
    exact congrArg (Option.map Fault.ofIo) h
  rw [run, Turn.andThen_of_no_fault hfault]
  simp only [printErr, printOut, note, Sink.writeAll_eq_write, List.nil_append, List.append_nil]
  rfl

/-- A console that has printed nothing yet, on sinks that always have room. -/
def unlimited : Console := .ofSinks .unlimited .unlimited

/-- With room for everything a run writes everything. -/
theorem run_unlimited (source : String) :
    unlimited.run source =
      ⟨listing source, reportText source, none,
        unlimited.note (!(reportLines source).isEmpty)⟩ := by
  have hwrite (chunk : Bytes) : Sink.unlimited.write chunk = ⟨chunk, none, .unlimited⟩ :=
    Sink.write_of_room?_eq_none rfl chunk
  have hfailure : (unlimited.err.write (reportText source)).failure? = none := by
    rw [show unlimited.err = .unlimited from rfl, hwrite]
  rw [run_of_no_failure hfailure, show unlimited.err = .unlimited from rfl,
    show unlimited.out = .unlimited from rfl, hwrite, hwrite]
  rfl

end Console

/-! ### Room for so many bytes -/

/-- The console has room for so many bytes on its output and on its error output. -/
structure Console.HasRoom (c : Console) (out err : Nat) : Prop where
  out : c.out = .ofRoom out
  err : c.err = .ofRoom err

namespace Turn

open Console

/-- What a turn has to print on the output: nothing, unless all its reports were written. -/
def owed (t : Turn) (a : Act) : Bytes := if t.err = a.errText then a.outText else []

/-- The turn did what it was told as far as there was room: it wrote first parts of what it had to
print, went on to the output only behind all of its reports, and failed if and only if not
everything was written. -/
structure IsCut (a : Act) (t : Turn) : Prop where
  err_prefix : t.err <+: a.errText
  out_prefix : t.out <+: a.outText
  out_eq_nil : t.err ≠ a.errText → t.out = []
  fault?_eq : t.fault? =
    if t.err = a.errText ∧ t.out = a.outText then none
    else some (.io (.custom .writeZero "failed to write whole buffer"))

end Turn

namespace Console

variable {c : Console} {a : Act} {out err : Nat}

/-- A turn whose reports fit writes the part of the listing that fits. -/
theorem act_of_le (h : c.HasRoom out err) (hle : a.errText.length ≤ err) :
    ∃ flag, c.act a =
      ⟨a.outText.take out, a.errText,
        if a.outText.length ≤ out then none else some (.ofIo .bufferFull),
        ⟨.ofRoom (out - a.outText.length), .ofRoom (err - a.errText.length), flag⟩⟩ := by
  cases a with
  | clear => exact ⟨false, by simp [act, clear, Act.errText, Act.outText, h.out, h.err]⟩
  | run source =>
    replace hle : (reportText source).length ≤ err := hle
    have hwrite : c.err.write (reportText source) =
        ⟨reportText source, none, .ofRoom (err - (reportText source).length)⟩ := by
      rw [h.err, Sink.write_ofRoom, List.take_of_length_le hle, if_pos hle]
    refine ⟨c.sawReports || !(reportLines source).isEmpty, ?_⟩
    rw [act, run_of_no_failure (by rw [hwrite]), hwrite, h.out, Sink.write_ofRoom]
    dsimp only
    rw [apply_ite (Option.map Fault.ofIo)]
    rfl

/-- A turn whose reports do not fit writes the part of them that fits, and fails. -/
theorem act_of_lt (h : c.HasRoom out err) (hlt : err < a.errText.length) :
    c.act a = ⟨[], a.errText.take err, some (.ofIo .bufferFull),
      ⟨.ofRoom out, .ofRoom 0, c.sawReports⟩⟩ := by
  cases a with
  | clear => exact absurd hlt (Nat.not_lt_zero err)
  | run source =>
    replace hlt : err < (reportText source).length := hlt
    have hwrite : c.err.write (reportText source) =
        ⟨(reportText source).take err, some .bufferFull, .ofRoom 0⟩ := by
      rw [h.err, Sink.write_ofRoom, if_neg (Nat.not_le.2 hlt),
        Nat.sub_eq_zero_of_le (Nat.le_of_lt hlt)]
    rw [act, run_of_failure (by rw [hwrite]), hwrite, h.out]
    rfl

/-- **One turn** writes the part of its texts that fits and leaves the room that is left. -/
theorem act_of_hasRoom (h : c.HasRoom out err) (a : Act) :
    (c.act a).err = a.errText.take err ∧ (c.act a).out = ((c.act a).owed a).take out ∧
      (c.act a).IsCut a ∧
      (c.act a).console.HasRoom (out - ((c.act a).owed a).length) (err - a.errText.length) := by
  rcases Nat.lt_or_ge err a.errText.length with hlt | hle
  · have hne : a.errText.take err ≠ a.errText := fun heq ↦
      absurd ((List.take_eq_self_iff _).1 heq) (Nat.not_le.2 hlt)
    rw [act_of_lt h hlt, Turn.owed, if_neg hne, Nat.sub_eq_zero_of_le (Nat.le_of_lt hlt)]
    refine ⟨rfl, List.take_nil.symm, ⟨List.take_prefix _ _, List.nil_prefix, fun _ ↦ rfl, ?_⟩, rfl,
      rfl⟩
    exact (if_neg fun hall ↦ hne hall.1).symm
  · obtain ⟨flag, hact⟩ := act_of_le h hle
    rw [hact, Turn.owed, if_pos rfl]
    refine ⟨(List.take_of_length_le hle).symm, rfl, ⟨List.prefix_rfl, List.take_prefix _ _,
      fun hne ↦ absurd rfl hne, ?_⟩, rfl, rfl⟩
    simp only [true_and, List.take_eq_self_iff]
    rfl

/-- **Any history**, by induction on it. -/
theorem turns_of_hasRoom (h : c.HasRoom out err) (acts : List Act) :
    (c.turns acts).flatMap Turn.err = (acts.flatMap Act.errText).take err ∧
      (c.turns acts).flatMap Turn.out =
        (List.zipWith Turn.owed (c.turns acts) acts).flatten.take out ∧
      List.Forall₂ Turn.IsCut acts (c.turns acts) := by
  induction acts generalizing c out err with
  | nil => exact ⟨List.take_nil.symm, List.take_nil.symm, .nil⟩
  | cons a more ih =>
    obtain ⟨herr, hout, hcut, hroom⟩ := act_of_hasRoom h a
    obtain ⟨hmoreErr, hmoreOut, hmore⟩ := ih hroom
    rw [turns]
    refine ⟨?_, ?_, .cons hcut hmore⟩
    · rw [List.flatMap_cons, List.flatMap_cons, List.take_append, herr, hmoreErr]
    · rw [List.flatMap_cons, List.zipWith_cons_cons, List.flatten_cons, List.take_append,
        ← hout, hmoreOut]

/-- **What arrives if output is cut short.** Over any history, the error output gets the first bytes
of all the reports, and the output the first bytes of the listings of those runs whose reports were
all written; the others write nothing there. A run fails if and only if not all of its reports and
its listing were written. What a run has to print is a matter of its source. -/
theorem turns_ofRoom (acts : List Act) (outLimit errLimit : Nat) :
    let ts := (ofSinks (.ofRoom outLimit) (.ofRoom errLimit)).turns acts
    ts.flatMap Turn.err = (acts.flatMap Act.errText).take errLimit ∧
      ts.flatMap Turn.out = (List.zipWith Turn.owed ts acts).flatten.take outLimit ∧
      List.Forall₂ Turn.IsCut acts ts :=
  turns_of_hasRoom ⟨rfl, rfl⟩ acts

end Console

end LoxLexer
