import LoxLexer.Console.Basic

/-!
# The command

Without arguments the command prompts for lines; with one argument it lexes that file; with more it
says how it is used. Lexical reports fail a file but not the prompt. A fault is displayed on the
error output and fails the command.

The arguments are texts, and nobody listens to the work: a trace that the surroundings may ask for,
which would go to the error output, is not part of the outcome.
-/

namespace LoxLexer

namespace Command

/-- The exit status of a command that is used wrongly. -/
def usageStatus : Nat := 64

/-- The exit status of a command that meets a fault, or a file with reports. -/
def faultStatus : Nat := 65

/-- How the command is used. -/
def usage : Bytes := Utf8.encode "Usage: lox-scan [script]\n"

/-- What surrounds a command: the files it can read, its input, and where its output goes. -/
structure Surroundings where
  readFile : String → Except IoFault Bytes
  input : Bytes
  output : Sink

/-- The outcome of a command. -/
structure Outcome where
  out : Bytes
  err : Bytes
  status : Nat
  deriving DecidableEq

/-- The line that tells of a fault. -/
def faultLine (fault : Fault) : Bytes := Utf8.encode (fault.display ++ "\n")

/-- Ends with a turn, in that status if the turn had no fault. -/
def conclude (t : Turn) (status : Nat) : Outcome :=
  match t.fault? with
  | none => ⟨t.out, t.err, status⟩
  | some fault => ⟨t.out, t.err ++ faultLine fault, faultStatus⟩

/-- Runs the content of a file. -/
def runFile (c : Console) : Except IoFault Bytes → Turn
  | .error e => c.fail e
  | .ok content => c.runBytes content

/-- The status of a file after a turn without fault. -/
def fileStatus (t : Turn) : Nat := if t.console.sawReports then faultStatus else 0

/-- The outcome of the command with these arguments. -/
def outcome (args : List String) (s : Surroundings) : Outcome :=
  let console := Console.ofSinks s.output .unlimited
  match args with
  | [] => conclude (console.prompt (Bytes.lines s.input)) 0
  | [path] =>
    let t := runFile console (s.readFile path)
    conclude t (fileStatus t)
  | _ => ⟨(s.output.write usage).bytes, [], usageStatus⟩

end Command

end LoxLexer
