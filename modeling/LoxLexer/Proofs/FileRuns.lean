import LoxLexer.Proofs.Prompts
import LoxLexer.Proofs.ReportMemory

/-!
# What the command does with a file

A file that cannot be read, or that is no text, is told of in one line, and nothing else is written
(`outcome_of_error`, `outcome_of_not_text`). The text of any other file is run as a source.
All its reports are written, since there is always room for them, and then the listing as far as the
output takes it (`outcome_of_written`, `outcome_of_overflow`).

The status is set in three places: after a run without fault, from what the console remembers; after
a fault in the run; and where there is no run. Nevertheless it only says whether anything was
written to the error output (`outcome_file`). A run without fault writes reports there or nothing,
and after a fault there is at least the line that tells of it.
-/

namespace LoxLexer

namespace Command

open Console

variable {files : String → Except IoFault Bytes} {input content : Bytes} {path source : String}
  {output : Sink}

theorem faultLine_ne_nil (fault : Fault) : faultLine fault ≠ [] := by
  intro h
  have hempty : fault.display ++ "\n" = "" := Utf8.encode_injective h
  simp at hempty

/-- There is nothing on the error output exactly if there is nothing to report. -/
theorem reportText_eq_nil_iff : reportText source = [] ↔ (lex source).reports = [] := by
  rw [reportText, List.flatten_eq_nil_iff, reportLines, List.forall_mem_map]
  refine ⟨fun h ↦ List.eq_nil_iff_forall_not_mem.2 fun r hr ↦ ?_, fun h ↦ by simp [h]⟩
  exact faultLine_ne_nil r.toFault (h r hr)

theorem outcome_singleton : outcome [path] ⟨files, input, output⟩ =
    conclude (runFile (ofSinks output .unlimited) (files path))
      (fileStatus (runFile (ofSinks output .unlimited) (files path))) := rfl

/-! ### Files that are not run -/

/-- A file that cannot be read is told of on the error output, and nothing else is. -/
theorem outcome_of_error {e : IoFault} (h : files path = .error e) :
    outcome [path] ⟨files, input, output⟩ =
      ⟨[], Utf8.encode ("IO error: " ++ e.display ++ "\n"), 65⟩ := by
  rw [outcome_singleton, h]
  rfl

/-- Nor is anything lexed of a file that is not UTF-8. -/
theorem outcome_of_not_text (h : files path = .ok content) (hcontent : ¬ Utf8.IsText content) :
    outcome [path] ⟨files, input, output⟩ =
      ⟨[], Utf8.encode "IO error: stream did not contain valid UTF-8\n", 65⟩ := by
  rw [outcome_singleton, h, runFile, runBytes, Utf8.decode?_eq_none_iff.2 hcontent]
  rfl

/-! ### Files that are run -/

/-- **A file is run**: the reports are written in any case, and then as much of the listing as the
output takes. -/
theorem runFile_encode (source : String) (output : Sink) :
    runFile (ofSinks output .unlimited) (.ok (Utf8.encode source)) =
      ⟨(output.write (listing source)).bytes, reportText source,
        (output.write (listing source)).failure?.map .ofIo,
        ⟨(output.write (listing source)).sink, .unlimited, !(lex source).reports.isEmpty⟩⟩ := by
  have hwrite : (ofSinks output .unlimited).err.write (reportText source) =
      ⟨reportText source, none, .unlimited⟩ := Sink.write_of_room?_eq_none rfl _
  rw [runFile, runBytes, Utf8.decode?_encode]
  show (ofSinks output .unlimited).run source = _
  rw [run_of_no_failure (by rw [hwrite]), hwrite, reportLines_isEmpty]
  rfl

/-- Where the listing fits, the status is that of the reports. -/
theorem outcome_of_written (h : files path = .ok (Utf8.encode source))
    (hwrite : (output.write (listing source)).failure? = none) :
    outcome [path] ⟨files, input, output⟩ =
      ⟨listing source, reportText source, if (lex source).reports = [] then 0 else 65⟩ := by
  have hbytes := (Sink.bytes_write_eq_iff _ _).2 hwrite
  rw [outcome_singleton, h, runFile_encode, hwrite, hbytes]
  show (⟨_, _, if !(lex source).reports.isEmpty then faultStatus else 0⟩ : Outcome) = _
  match (lex source).reports with
  | [] => rfl
  | _ :: _ => rfl

/-- Where it does not, the fault comes behind the reports. -/
theorem outcome_of_overflow {f : IoFault} (h : files path = .ok (Utf8.encode source))
    (hwrite : (output.write (listing source)).failure? = some f) :
    outcome [path] ⟨files, input, output⟩ =
      ⟨(output.write (listing source)).bytes, reportText source ++ faultLine (.ofIo f), 65⟩ := by
  rw [outcome_singleton, h, runFile_encode, hwrite]
  rfl

/-- A full device takes nothing of a listing, which is never empty. -/
theorem write_fullDevice (source : String) : Sink.fullDevice.write (listing source) =
    ⟨[], some (.system .noSpace), .fullDevice⟩ := by
  have hlength : ¬ (listing source).length ≤ 0 := fun h ↦
    listing_ne_nil source (List.eq_nil_of_length_eq_zero (Nat.le_zero.1 h))
  have hroom : Sink.fullDevice.room? = some 0 := rfl
  rw [Sink.write_of_room?_eq_some hroom, if_neg hlength, List.take_zero, Nat.zero_sub]
  rfl

/-! ### All files -/

/-- The error output and the status say the same: nothing and zero, or something and 65. -/
def Outcome.IsConsistent (o : Outcome) : Prop :=
  (o.status = 0 ∧ o.err = []) ∨ (o.status = 65 ∧ o.err ≠ [])

/-- Whatever is read of the file, and whether or not the listing fits. -/
theorem isConsistent_outcome (files : String → Except IoFault Bytes) (input : Bytes)
    (path : String) (output : Sink) : (outcome [path] ⟨files, input, output⟩).IsConsistent := by
  match h : files path with
  | .error e =>
    rw [outcome_of_error h]
    exact .inr ⟨rfl, faultLine_ne_nil (.ofIo e)⟩
  | .ok content =>
    by_cases hcontent : Utf8.IsText content
    · obtain ⟨source, rfl⟩ := hcontent
      match hwrite : (output.write (listing source)).failure? with
      | none =>
        rw [outcome_of_written h hwrite]
        by_cases hreports : (lex source).reports = []
        · exact .inl ⟨if_pos hreports, reportText_eq_nil_iff.2 hreports⟩
        · exact .inr ⟨if_neg hreports, mt reportText_eq_nil_iff.1 hreports⟩
      | some f =>
        rw [outcome_of_overflow h hwrite]
        exact .inr ⟨rfl, List.append_ne_nil_of_right_ne_nil _ (faultLine_ne_nil _)⟩
    · rw [outcome_of_not_text h hcontent]
      exact .inr ⟨rfl, faultLine_ne_nil (.ofIo .invalidUtf8)⟩

/-- **What the command does with a file.** Whatever the file is and wherever the output goes, the
status is zero or 65, and it is 65 exactly if something was written to the error output. If the
output takes everything and the file is a text, the output is the whole listing, whatever is
reported, the error output is the lines that tell of the reports, and the status is 65 exactly if
there are any. If the output is full, the line that tells of this comes behind all of those. Of a
file that is no text, or that cannot be read, a single line tells, and nothing is written. -/
theorem outcome_file (files : String → Except IoFault Bytes) (input : Bytes) (path : String) :
    (∀ output, ((outcome [path] ⟨files, input, output⟩).status = 0 ∨
        (outcome [path] ⟨files, input, output⟩).status = 65) ∧
      ((outcome [path] ⟨files, input, output⟩).status = 65 ↔
        (outcome [path] ⟨files, input, output⟩).err ≠ [])) ∧
    (∀ source, files path = .ok (Utf8.encode source) →
      outcome [path] ⟨files, input, .unlimited⟩ =
          ⟨listing source, reportText source, if (lex source).reports = [] then 0 else 65⟩ ∧
        outcome [path] ⟨files, input, .fullDevice⟩ =
          ⟨[], reportText source ++
            Utf8.encode "IO error: No space left on device (os error 28)\n", 65⟩) ∧
    (∀ content, files path = .ok content → ¬ Utf8.IsText content → ∀ output,
      outcome [path] ⟨files, input, output⟩ =
        ⟨[], Utf8.encode "IO error: stream did not contain valid UTF-8\n", 65⟩) ∧
    ∀ e, files path = .error e → ∀ output,
      outcome [path] ⟨files, input, output⟩ =
        ⟨[], Utf8.encode ("IO error: " ++ e.display ++ "\n"), 65⟩ := by
  refine ⟨fun output ↦ ?_, fun source h ↦ ⟨?_, ?_⟩, fun content h hcontent output ↦ ?_,
    fun e h output ↦ outcome_of_error h⟩
  · rcases isConsistent_outcome files input path output with ⟨hstatus, herr⟩ | ⟨hstatus, herr⟩
    · rw [hstatus]
      exact ⟨.inl rfl, iff_of_false (by decide) fun hne ↦ hne herr⟩
    · exact ⟨.inr hstatus, iff_of_true hstatus herr⟩
  · exact outcome_of_written h rfl
  · rw [outcome_of_overflow h (congrArg Written.failure? (write_fullDevice source)),
      write_fullDevice]
    rfl
  · exact outcome_of_not_text h hcontent

end Command

end LoxLexer
