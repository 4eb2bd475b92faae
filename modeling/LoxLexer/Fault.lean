import LoxLexer.Report

/-!
# Faults

Whatever can go wrong in a run is a fault: something lexical, with its line, or something with
input and output. The two kinds of value wrap each other, since a system that only speaks of input
and output carries any other fault as a payload. What a fault displays, its message and the chain
of faults behind it are all read off by going through the wrappers.

Between a run and the system faults change their form. On the way out a fault becomes a failure of
input and output: the cause of one that has a cause, or else the fault itself carried along. On the
way in every failure becomes a fault. Going out undoes going in, but not the other way round: a
lexical fault that goes out and comes back in is one of input and output ever after.

Reports can be heard one by one, or kept as faults in a log. Either way they are the same reports in
the same order (`FaultLog.getElem?_entries`).
-/

namespace LoxLexer

/-! ### Failures of the system -/

/-- A kind of failure of input and output, told by its name. Systems have kinds of their own, so
there is no list of all kinds. -/
structure IoKind where
  name : String
  deriving DecidableEq

namespace IoKind

/-- The kind of what is of no other kind. -/
def other : IoKind := ⟨"Other"⟩

/-- What was read is not what it should be. -/
def invalidData : IoKind := ⟨"InvalidData"⟩

/-- Nothing more could be written. -/
def writeZero : IoKind := ⟨"WriteZero"⟩

/-- There is no space left on a medium. -/
def storageFull : IoKind := ⟨"StorageFull"⟩

end IoKind

/-- An error of the operating system: its number, what it means, and the kind of failure that it is.
Which errors there are is up to the system. -/
structure OsError where
  code : Int
  description : String
  kind : IoKind
  deriving DecidableEq

namespace OsError

/-- There is no space left on a device. -/
def noSpace : OsError := ⟨28, "No space left on device", .storageFull⟩

/-- An error as it is displayed. -/
def display (e : OsError) : String :=
  e.description ++ " (os error " ++ toString e.code ++ ")"

end OsError

/-! ### Faults -/

mutual

/-- Something that goes wrong in a run. -/
inductive Fault
  /-- Something wrong with the source, on that line. -/
  | lexical (line : Nat) (message : String)
  /-- Input or output fails. -/
  | io (cause : IoFault)

/-- A failure of input or output. -/
inductive IoFault
  /-- A failure that a program describes itself. -/
  | custom (kind : IoKind) (message : String)
  /-- A failure that the operating system reports. -/
  | system (e : OsError)
  /-- Any fault, passed on as a failure of input or output. -/
  | carrying (payload : Fault)

end

mutual

/-- A fault as it is displayed. -/
def Fault.display : Fault → String
  | .lexical line message => "[line " ++ line.repr ++ "] Error: " ++ message
  | .io cause => "IO error: " ++ cause.display

/-- A failure as it is displayed; a payload shows through. -/
def IoFault.display : IoFault → String
  | .custom _ message => message
  | .system e => e.display
  | .carrying payload => payload.display

end

mutual

/-- What the faults behind a fault display, the nearest first. -/
def Fault.sources : Fault → List String
  | .lexical _ _ => []
  | .io cause => cause.display :: cause.sources

/-- What the faults behind a failure display; a payload stands for its own. -/
def IoFault.sources : IoFault → List String
  | .custom _ _ => []
  | .system _ => []
  | .carrying payload => payload.sources

end

namespace Fault

/-- The line of a fault in the source. -/
def line? : Fault → Option Nat
  | lexical line _ => some line
  | io _ => none

/-- The message of a fault, without its line or its cause. -/
def message : Fault → String
  | lexical _ message => message
  | io _ => "IO error"

end Fault

namespace IoFault

/-- The kind of a failure. -/
def kind : IoFault → IoKind
  | custom kind _ => kind
  | system e => e.kind
  | carrying _ => .other

/-- The failure carries a fault of another sort. -/
def isCarrying : IoFault → Bool
  | carrying _ => true
  | _ => false

/-- What is read is not UTF-8. -/
def invalidUtf8 : IoFault := custom .invalidData "stream did not contain valid UTF-8"

/-- What is written does not fit. -/
def bufferFull : IoFault := custom .writeZero "failed to write whole buffer"

end IoFault

/-- The fault that a report tells of. -/
def Report.toFault (r : Report) : Fault := .lexical r.line r.message

/-! ### Crossings -/

/-- The failure of input and output that a fault amounts to outside. -/
def Fault.toIo : Fault → IoFault
  | .io cause => cause
  | fault => .carrying fault

/-- The fault that a failure of input and output amounts to inside. -/
def Fault.ofIo (cause : IoFault) : Fault := .io cause

@[simp] theorem Fault.toIo_ofIo (cause : IoFault) : (Fault.ofIo cause).toIo = cause := rfl

/-- A fault in one of its two forms. -/
inductive Passage
  | inside (fault : Fault)
  | outside (failure : IoFault)

/-- A crossing of the boundary. -/
inductive Crossing
  | outward | inward
  deriving DecidableEq

namespace Passage

/-- Crosses the boundary. What is already on that side stays as it is. -/
def cross : Passage → Crossing → Passage
  | inside fault, .outward => outside fault.toIo
  | outside failure, .inward => inside (.ofIo failure)
  | form, _ => form

/-- The forms before the first crossing and after each. -/
def forms : Passage → List Crossing → List Passage
  | form, [] => [form]
  | form, c :: cs => form :: (form.cross c).forms cs

end Passage

/-! ### Logs -/

/-- A log keeps every report as a lexical fault, in the order in which they are made. -/
structure FaultLog where
  faults : List Fault

namespace FaultLog

def empty : FaultLog := ⟨[]⟩

/-- Keeps one more report. -/
def keep (log : FaultLog) (line : Nat) (message : String) : FaultLog :=
  ⟨log.faults ++ [.lexical line message]⟩

/-- Keeps reports one after the other. -/
def keepAll (log : FaultLog) (reports : List (Nat × String)) : FaultLog :=
  reports.foldl (fun log r ↦ log.keep r.1 r.2) log

def size (log : FaultLog) : Nat := log.faults.length

/-- The latest fault. -/
def latest? (log : FaultLog) : Option Fault := log.faults.getLast?

/-- The state after one report: the line and message as they are heard, and the log. -/
structure Entry where
  line : Nat
  message : String
  log : FaultLog

/-- The states after each of some reports. -/
def entries : FaultLog → List (Nat × String) → List Entry
  | _, [] => []
  | log, (line, message) :: more =>
    let grown := log.keep line message
    ⟨line, message, grown⟩ :: grown.entries more

variable (log : FaultLog) (reports : List (Nat × String))

/-- A log only grows, by a lexical fault for each report. -/
theorem faults_keepAll :
    (log.keepAll reports).faults = log.faults ++ reports.map fun r ↦ .lexical r.1 r.2 := by
  induction reports generalizing log with
  | nil => exact (List.append_nil _).symm
  | cons r more ih =>
    show ((log.keep r.1 r.2).keepAll more).faults = _
    rw [ih, keep, List.append_assoc, List.map_cons, List.singleton_append]

theorem size_keepAll : (log.keepAll reports).size = log.size + reports.length := by
  rw [size, faults_keepAll, List.length_append, List.length_map, size]

/-- The latest fault is the one kept last. -/
theorem latest?_keep (line : Nat) (message : String) :
    (log.keep line message).latest? = some (.lexical line message) := List.getLast?_concat

/-- **Each state** tells of its report as it was heard, and its log has kept the reports up to that
one. -/
theorem getElem?_entries (i : Nat) :
    (log.entries reports)[i]? =
      reports[i]?.map fun r ↦ ⟨r.1, r.2, log.keepAll (reports.take (i + 1))⟩ := by
  induction reports generalizing log i with
  | nil => rfl
  | cons r more ih =>
    cases i with
    | zero => rfl
    | succ i => exact ih (log.keep r.1 r.2) i

/-- What is kept of the reports of a source is the faults that they tell of. -/
theorem faults_keepAll_empty (reports : List Report) :
    (empty.keepAll (reports.map fun r ↦ (r.line, r.message))).faults =
      reports.map Report.toFault := by
  rw [faults_keepAll, List.map_map]
  rfl

end FaultLog

end LoxLexer
