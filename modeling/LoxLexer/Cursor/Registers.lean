import LoxLexer.Cursor.Basic
import Mathlib.Data.PFun

/-!
# A machine with registers

A cursor takes whole pieces off a text and counts without end. Here is what its work amounts to one
character at a time, for a machine that keeps its counts in registers and takes lexemes out of the
source by their byte offsets. Nothing in it is sure to succeed: a register may be too small for a
sum, a difference may fall below zero, and two offsets may delimit no part of the source. The loops
have no bound either.

So a routine of the machine is a partial function of its state (`Machine.Routine`). It is undefined
where one of its operations is (`add`, `sub`, `slice`), and also where one of its loops never ends
(`loop`); that it has an outcome says that neither happens. The registers are written by
`store` alone, which keeps a record of every setting.
-/

namespace LoxLexer

/-- A machine that reads one source. -/
structure Machine where
  source : String
  /-- The registers hold numbers below this one, or all numbers. -/
  capacity? : Option Nat
  /-- The value of a text, if it is taken for a number. -/
  parse : String → Option Binary64
  /-- How much is told of the work, if there is anybody to listen. -/
  verbosity? : Option Verbosity

namespace Machine

/-! ### States -/

/-- The registers of a machine. -/
structure Registers where
  /-- The characters not consumed yet. -/
  rest : List Char
  /-- Where the piece begins that is being read. -/
  start : Position
  /-- Where the next character is. -/
  here : Position
  /-- How many reports were made. -/
  reported : Nat
  finished : Bool
  deriving DecidableEq

/-- The byte offset of the next character, which at the end is the length of the source. -/
def Registers.current (r : Registers) (source : String) : Nat :=
  if r.rest = [] then source.utf8ByteSize else r.here.offset

/-- The state of a machine, with a record of what it did. -/
structure State where
  registers : Registers
  /-- Every setting of the registers up to now. -/
  visited : List Registers
  reports : List Report
  /-- What was told of the work. -/
  trace : List TraceRecord
  /-- The texts that were to be taken for numbers. -/
  parsed : List String

/-- The state in front of a source. -/
def State.ofSource (source : String) : State :=
  let r : Registers := ⟨source.toList, .start, .start, 0, false⟩
  ⟨r, [r], [], [], []⟩

/-- A partial function of the state. -/
abbrev Routine := StateT State Part

/-! ### Partial operations -/

/-- The difference of two numbers, where it is not below zero. -/
def sub (a b : Nat) : Part Nat := Part.assert (b ≤ a) fun _ ↦ .some (a - b)

/-- The part of a source between two byte offsets. They have to be in order, and both on boundaries
of characters. -/
def slice (source : String) (first stop : Nat) : Part String :=
  Part.assert ((⟨first⟩ : String.Pos.Raw).IsValid source ∧
      (⟨stop⟩ : String.Pos.Raw).IsValid source ∧ first ≤ stop) fun h ↦
    .some (source.slice (source.pos ⟨first⟩ h.1) (source.pos ⟨stop⟩ h.2.1) h.2.2).copy

/-- One round of a loop: it ends with a result or goes on with another value. -/
def round {α β : Type} (body : β → Routine (α ⊕ β)) : β × State →. (α × State) ⊕ (β × State) :=
  fun p ↦ (body p.1 p.2).map fun q ↦ q.1.map (·, q.2) (·, q.2)

/-- Goes through the body of a loop with one value after the other until there is a result. -/
def loop {α β : Type} (body : β → Routine (α ⊕ β)) (b : β) : Routine α :=
  fun s ↦ (round body).fix (b, s)

def registers : Routine Registers := return (← get).registers

/-- Sets the registers. -/
def store (r : Registers) : Routine Unit :=
  modify fun s ↦ { s with registers := r, visited := s.visited ++ [r] }

variable (m : Machine)

/-- The sum of two numbers, where a register can hold it. -/
def add (a b : Nat) : Part Nat := Part.assert (∀ n ∈ m.capacity?, a + b < n) fun _ ↦ .some (a + b)

/-! ### Characters -/

/-- Consumes a character. -/
def advance : Routine (Option Char) := do
  let r ← registers
  match r.rest with
  | [] => return none
  | c :: rest =>
    let offset ← m.add r.here.offset c.utf8Size
    if c = '\n' then
      let line ← m.add r.here.line 1
      store { r with rest, here := ⟨line, 1, offset⟩ }
    else
      let column ← m.add r.here.column 1
      store { r with rest, here := ⟨r.here.line, column, offset⟩ }
    return some c

/-- Consumes characters in front of one at which to stop. -/
def advanceUntil (stops : Char → Bool) : Routine Unit :=
  loop (fun _ ↦ do
    let r ← registers
    match r.rest with
    | [] => return .inl ()
    | c :: _ =>
      if stops c then
        return .inl ()
      else
        let _ ← m.advance
        return .inr ()) ()

/-- Consumes the next character if it is `c`. -/
def skip (c : Char) : Routine Bool := do
  let r ← registers
  if r.rest.head? = some c then
    let _ ← m.advance
    return true
  else
    return false

/-! ### Tokens and reports -/

/-- The text from the start of the piece up to the next character. -/
def lexeme : Routine String := do
  let r ← registers
  slice m.source r.start.offset (r.current m.source)

def token (kind : Token.Kind) (literal : Option Literal) : Routine (Option Token) := do
  let text ← m.lexeme
  let r ← registers
  return some ⟨kind, text, literal, r.start⟩

/-- Tells of a record, as far as there is somebody who wants to hear of it. -/
def tell (x : TraceRecord) : Routine Unit :=
  modify fun s ↦ { s with trace := s.trace ++ x.told m.verbosity? }

/-- Tells of a report, counts it and makes it. -/
def report (problem : Problem) : Routine (Option Token) := do
  let r ← registers
  m.tell (.problem r.here.line problem.message)
  let reported ← m.add r.reported 1
  store { r with reported }
  modify fun s ↦ { s with reports := s.reports ++ [⟨r.here.line, problem⟩] }
  return none

/-! ### Pieces -/

/-- A string behind its opening quote. The quotes at both ends take one byte each. -/
def string : Routine (Option Token) := do
  m.advanceUntil (· = '"')
  let quote? ← m.advance
  match quote? with
  | none => m.report .unterminated
  | some _ =>
    let r ← registers
    let stop ← sub (r.current m.source) 1
    let first ← m.add r.start.offset 1
    let body ← slice m.source first stop
    m.token .string (some (.string body))

/-- A point and the digits behind it, if the next two characters are a point and a digit. -/
def fraction : Routine Unit := do
  let r ← registers
  if r.rest.head? = some '.' ∧ r.rest.tail.head?.any Char.isDigit then
    let _ ← m.advance
    m.advanceUntil (!·.isDigit)
  else
    return

/-- The text of a number behind its first digit. -/
def numeral : Routine Unit := do
  m.advanceUntil (!·.isDigit)
  m.fraction

/-- A number behind its first digit. -/
def number : Routine (Option Token) := do
  m.numeral
  let text ← m.lexeme
  modify fun s ↦ { s with parsed := s.parsed ++ [text] }
  match m.parse text with
  | some x => m.token .number (some (.number x))
  | none => m.report (.malformedNumber text)

/-- A word behind its first character. -/
def word : Routine (Option Token) := do
  m.advanceUntil (!isWordPart ·)
  let text ← m.lexeme
  m.token (.ofWord text) none

/-- A comment or an operator behind its first slash. -/
def slash : Routine (Option Token) := do
  let isComment ← m.skip '/'
  if isComment then
    m.advanceUntil (· = '\n')
    return none
  else
    m.token (.operator .slash) none

/-- An operator behind its first character. -/
def operator (o : Operator) : Routine (Option Token) := do
  match o.withEqual? with
  | none => m.token (.operator o) none
  | some both =>
    let isBoth ← m.skip '='
    m.token (.operator (if isBoth then both else o)) none

/-- The piece behind its first character `c`. -/
def piece (c : Char) : Routine (Option Token) :=
  match Operator.ofChar? c with
  | some .slash => m.slash
  | some o => m.operator o
  | none =>
    if isBlank c then return none
    else if c = '"' then m.string
    else if c.isDigit then m.number
    else if isWordStart c then m.word
    else m.report (.unexpected c)

/-! ### The loops over pieces -/

/-- Reads one piece. -/
def pass : Routine (Option Token) := do
  let r ← registers
  store { r with start := { r.here with offset := r.current m.source } }
  let c? ← m.advance
  match c? with
  | none => return none
  | some c => m.piece c

/-- Reads up to the next token. -/
def next : Routine (Option Token) :=
  loop (fun _ ↦ do
    let r ← registers
    if r.rest = [] then
      if r.finished then
        return .inl none
      else
        store { r with finished := true }
        return .inl (some (.endOfFile { r.here with offset := m.source.utf8ByteSize }))
    else
      let t? ← m.pass
      match t? with
      | some t => return .inl (some t)
      | none => return .inr ()) ()

/-- Reads all tokens that are left, and puts them behind others. -/
def collect (ts : List Token) : Routine (List Token) :=
  loop (fun ts ↦ do
    let t? ← m.next
    match t? with
    | none => return .inl ts
    | some t => return .inr (ts ++ [t])) ts

/-- Reads all tokens that are left. -/
def drain : Routine (List Token) := m.collect []

/-- Reads all tokens that are left, and tells of it before and behind what is told on the way. -/
def scan : Routine (List Token) := do
  m.tell (.opened m.source.utf8ByteSize)
  m.tell .entered
  let ts ← m.drain
  let r ← registers
  m.tell (.complete ts.length r.reported)
  m.tell .exited
  return ts

/-- A state that the machine comes to in front of a piece or of the end, whatever calls were
made. -/
inductive Reached : State → Prop
  | start : Reached (.ofSource m.source)
  /-- One round of the loop in a call. -/
  | pass {s t : State} {t? : Option Token} (h : Reached s) (hrest : s.registers.rest ≠ [])
      (hpass : (t?, t) ∈ m.pass s) : Reached t
  /-- A whole call. -/
  | next {s t : State} {t? : Option Token} (h : Reached s) (hnext : (t?, t) ∈ m.next s) : Reached t

end Machine

end LoxLexer
