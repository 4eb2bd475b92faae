import LoxLexer.Command

/-!
# The program

The command on the real surroundings. Files and lines are read, and turns are carried out, as the
console says; the errors of the system are passed on as faults.
-/

namespace LoxLexer

namespace Program

/-! ### Errors of the system -/

/-- The number of an error, as it is given, and what it means, if the system reports it. -/
def report? : IO.Error → Option (UInt32 × String)
  | .alreadyExists _ code details | .interrupted _ code details | .noFileOrDirectory _ code details
  | .invalidArgument _ code details | .permissionDenied _ code details
  | .resourceExhausted _ code details | .inappropriateType _ code details
  | .noSuchThing _ code details | .otherError code details | .resourceBusy code details
  | .resourceVanished code details | .unsupportedOperation code details
  | .hardwareFault code details | .unsatisfiedConstraints code details
  | .illegalOperation code details | .protocolError code details | .timeExpired code details =>
    some (code, details)
  | .unexpectedEof | .userError _ => none

/-- What the system says of the errors that opening, reading or writing a file can meet. The
details that come with an error may be in other words. -/
def descriptions : List (Nat × String) :=
  [(1, "Operation not permitted"), (2, "No such file or directory"),
    (4, "Interrupted system call"), (5, "Input/output error"), (6, "No such device or address"),
    (9, "Bad file descriptor"), (11, "Resource temporarily unavailable"),
    (12, "Cannot allocate memory"), (13, "Permission denied"), (14, "Bad address"),
    (16, "Device or resource busy"), (19, "No such device"), (20, "Not a directory"),
    (21, "Is a directory"), (22, "Invalid argument"), (23, "Too many open files in system"),
    (24, "Too many open files"), (26, "Text file busy"), (27, "File too large"),
    (28, "No space left on device"), (30, "Read-only file system"), (32, "Broken pipe"),
    (36, "File name too long"), (40, "Too many levels of symbolic links"),
    (75, "Value too large for defined data type"), (110, "Connection timed out"),
    (112, "Host is down"), (116, "Stale file handle"), (122, "Disk quota exceeded")]

/-- An error of that number, which may be given negated. Its kind has no part in what is displayed
of it. -/
def osError (raw : UInt32) (details : String) : OsError :=
  let code := min raw.toNat (UInt32.size - raw.toNat)
  ⟨code, (descriptions.lookup code).getD details, .other⟩

/-- An error as a failure of input or output. -/
def failure (e : IO.Error) : IoFault :=
  match report? e with
  | some (raw, details) => .system (osError raw details)
  | none => .custom .other (toString e)

/-! ### The command at work -/

/-- Writes what a turn printed, the reports first. -/
def carryOut (t : Turn) : IO Unit := do
  let out ← IO.getStdout
  let err ← IO.getStderr
  err.write t.err.toByteArray
  err.flush
  out.write t.out.toByteArray
  out.flush

/-- Tells of a fault and gives the exit status for it. -/
def giveUp (fault : Fault) : IO UInt32 := do
  (← IO.getStderr).write (Command.faultLine fault).toByteArray
  return Command.faultStatus.toUInt32

/-- Reads up to and including the next line feed, or to the end of the input. -/
partial def readLine (input : IO.FS.Stream) (line : ByteArray) : IO Bytes := do
  let byte ← input.read 1
  if byte.isEmpty then return line.data.toList
  let longer := line ++ byte
  if byte.data.toList = [Bytes.lineFeed] then return longer.data.toList
  readLine input longer

/-- Prompts until the input ends or a fault comes up. -/
partial def prompt (input : IO.FS.Stream) (c : Console) : IO UInt32 := do
  let marked := c.mark
  carryOut marked
  let line ← readLine input .empty
  if line.isEmpty then return 0
  let t := marked.console.runLine line
  carryOut t
  match t.fault? with
  | some fault => giveUp fault
  | none => prompt input t.console

/-- Runs the file of that name. -/
def runFile (path : String) (c : Console) : IO UInt32 := do
  let t := c.runBytes (← IO.FS.readBinFile path).data.toList
  carryOut t
  match t.fault? with
  | some fault => giveUp fault
  | none => return (Command.fileStatus t).toUInt32

/-- Runs the command, and passes on what the system reports as a fault. -/
def run (args : List String) : IO UInt32 := do
  let console := Console.ofSinks .unlimited .unlimited
  let work := match args with
    | [] => do prompt (← IO.getStdin) console
    | [path] => runFile path console
    | _ => do
      try (← IO.getStdout).write Command.usage.toByteArray catch _ => pure ()
      return Command.usageStatus.toUInt32
  try work catch e => giveUp (.ofIo (failure e))

end Program

end LoxLexer

/-- Lexes the file that is named, or else the lines put in at the prompt. -/
def main (args : List String) : IO UInt32 := LoxLexer.Program.run args
