import LoxLexer.Console.Sink
import LoxLexer.Lexed

/-!
# Consoles

A console lexes sources and prints what it finds: first the reports, a line each, to one sink, then
the token listing to another. It remembers whether any source had reports, which it notes once they
all are written. The first write that fails ends the turn.

A listing has one row for each token: the line, set flush right in four columns, a colon, the
column, set flush left in three, a blank, and the token as it is displayed. A number that needs
more room takes it. A string token that holds line feeds runs over several lines.

At the prompt every line is a source of its own, lexed with the line feed that ends it. The prompt
mark is written in front of every line and once more in front of the end of the input. What was
wrong with a line is forgotten before the next; a line that is not UTF-8 ends the prompt.

What a source prints depends on that source alone; what arrives depends on the room the sinks have
left.
-/

namespace LoxLexer

/-! ### Listings -/

namespace Listing

/-- Puts blanks in front, up to that width. -/
def flushRight (width : Nat) (s : String) : String := String.ofList (s.toList.leftpad width ' ')

/-- Puts blanks behind, up to that width. -/
def flushLeft (width : Nat) (s : String) : String := String.ofList (s.toList.rightpad width ' ')

/-- The row of a token, with the line feed that ends it. -/
def row (t : Token) : String :=
  flushRight 4 t.start.line.repr ++ ":" ++ flushLeft 3 t.start.column.repr ++ " " ++
    t.display ++ "\n"

theorem row_ne_empty (t : Token) : row t ≠ "" := by
  rw [row]
  simp

end Listing

/-! ### Consoles and turns -/

/-- Two sinks, and whether reports have been printed since that was last cleared. -/
structure Console where
  out : Sink
  err : Sink
  sawReports : Bool

/-- What a console did in a turn: the bytes written to its sinks, the fault that ended the turn if
one did, and the console left behind. -/
structure Turn where
  out : Bytes
  err : Bytes
  fault? : Option Fault
  console : Console

namespace Turn

/-- Goes on with a further turn, unless a fault has ended this one. -/
def andThen (t : Turn) (more : Console → Turn) : Turn :=
  match t.fault? with
  | some _ => t
  | none =>
    let next := more t.console
    ⟨t.out ++ next.out, t.err ++ next.err, next.fault?, next.console⟩

/-- A fault ends the turn, and nothing else is done in it. -/
theorem andThen_of_fault {t : Turn} {f : Fault} (h : t.fault? = some f) (more : Console → Turn) :
    t.andThen more = t := by
  simp only [andThen, h]

/-- Without a fault the outputs come one behind the other, and the further turn has the last
word. -/
theorem andThen_of_no_fault {t : Turn} (h : t.fault? = none) (more : Console → Turn) :
    t.andThen more =
      ⟨t.out ++ (more t.console).out, t.err ++ (more t.console).err, (more t.console).fault?,
        (more t.console).console⟩ := by
  simp only [andThen, h]

end Turn

namespace Console

/-- A console that has printed nothing yet. -/
def ofSinks (out err : Sink) : Console := ⟨out, err, false⟩

/-! ### What a source prints -/

/-- The line that tells of a report. -/
def reportLine (r : Report) : Bytes := Utf8.encode (r.toFault.display ++ "\n")

/-- The row of a token as bytes. -/
def tokenRow (t : Token) : Bytes := Utf8.encode (Listing.row t)

/-- The lines that tell of a source's reports. -/
def reportLines (source : String) : List Bytes := (lex source).reports.map reportLine

/-- The rows of a source's tokens. -/
def tokenRows (source : String) : List Bytes := (lex source).tokens.map tokenRow

/-! ### Turns -/

/-- A turn that does nothing but fail. -/
def fail (c : Console) (failure : IoFault) : Turn := ⟨[], [], some (.ofIo failure), c⟩

/-- Writes some chunks to the output. -/
def printOut (c : Console) (chunks : List Bytes) : Turn :=
  let w := c.out.writeAll chunks
  ⟨w.bytes, [], w.failure?.map .ofIo, { c with out := w.sink }⟩

/-- Writes some chunks to the error output. -/
def printErr (c : Console) (chunks : List Bytes) : Turn :=
  let w := c.err.writeAll chunks
  ⟨[], w.bytes, w.failure?.map .ofIo, { c with err := w.sink }⟩

/-- Notes whether there were reports, on top of what was noted before. -/
def note (c : Console) (any : Bool) : Console := { c with sawReports := c.sawReports || any }

/-- Forgets that there were reports. -/
def clear (c : Console) : Console := { c with sawReports := false }

/-- Lexes a source and prints its reports, then its tokens. -/
def run (c : Console) (source : String) : Turn :=
  (c.printErr (reportLines source)).andThen fun d ↦
    (d.note (!(reportLines source).isEmpty)).printOut (tokenRows source)

/-- Runs the source that some bytes encode. -/
def runBytes (c : Console) (bytes : Bytes) : Turn :=
  match Utf8.decode? bytes with
  | none => c.fail .invalidUtf8
  | some source => c.run source

/-! ### Histories -/

/-- What a console can be told to do. -/
inductive Act
  | run (source : String)
  | clear
  deriving DecidableEq

/-- Does as told. -/
def act (c : Console) : Act → Turn
  | .run source => c.run source
  | .clear => ⟨[], [], none, c.clear⟩

/-- Does one thing after the other, whatever faults there are. -/
def turns : Console → List Act → List Turn
  | _, [] => []
  | c, a :: more =>
    let t := c.act a
    t :: t.console.turns more

/-! ### The prompt -/

/-- The prompt mark. -/
def promptMark : Bytes := Utf8.encode "> "

/-- Writes the prompt mark. -/
def mark (c : Console) : Turn := c.printOut [promptMark]

/-- Runs one line and forgets its reports. -/
def runLine (c : Console) (line : Bytes) : Turn :=
  (c.runBytes line).andThen fun d ↦ d.act .clear

/-- Prompts for lines until there are no more. -/
def prompt : Console → List Bytes → Turn
  | c, [] => c.mark
  | c, line :: more => c.mark.andThen fun d ↦ (d.runLine line).andThen fun e ↦ e.prompt more

end Console

end LoxLexer
