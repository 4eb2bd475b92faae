import LoxLexer.Number.Decimal
import LoxLexer.Token.Kind

/-!
# Pieces of a source

Every source is cut from left to right into pieces: blanks, comments, strings, numbers, words,
operators, and characters that begin nothing. `Piece.read` takes the first piece off a text and is
the only place that decides where one ends; what a piece amounts to is another matter.

A piece holds the characters it was cut from (`Piece.chars`), so cutting loses nothing
(`chars_read_append`) and makes progress (`length_read_lt`). It looks at the characters behind the
piece but never at those in front of it.
-/

namespace LoxLexer

/-! ### Character classes -/

/-- Blank, tab, carriage return and line feed. -/
def isBlank (c : Char) : Bool := c = ' ' ∨ c = '\t' ∨ c = '\r' ∨ c = '\n'

/-- ASCII letters and the underscore begin a word. -/
def isWordStart (c : Char) : Bool := c.isAlpha ∨ c = '_'

/-- A word goes on with letters, underscores and ASCII digits. -/
def isWordPart (c : Char) : Bool := isWordStart c ∨ c.isDigit

/-! ### Pieces -/

/-- A piece of source. -/
inductive Piece
  /-- A single blank. -/
  | blank (c : Char)
  /-- A comment, without the two slashes in front of it. -/
  | comment (body : List Char)
  /-- A closed string, without its quotes. -/
  | string (body : List Char)
  /-- What follows a quote that nothing closes. -/
  | openString (body : List Char)
  /-- A number. -/
  | number (text : List Char)
  /-- A word. -/
  | word (text : List Char)
  /-- An operator. -/
  | operator (o : Operator)
  /-- A character that begins no other piece. -/
  | stray (c : Char)
  deriving DecidableEq

namespace Piece

/-- The characters of a piece. -/
def chars : Piece → List Char
  | blank c => [c]
  | comment body => '/' :: '/' :: body
  | string body => '"' :: (body ++ ['"'])
  | openString body => '"' :: body
  | number text => text
  | word text => text
  | operator o => o.chars
  | stray c => [c]

/-- Reads a string behind its opening quote, up to the next quote or else to the end. -/
def readString (s : List Char) : Piece × List Char :=
  match s.dropWhile (· ≠ '"') with
  | [] => (openString s, [])
  | _ :: rest => (string (s.takeWhile (· ≠ '"')), rest)

/-- Takes the first piece off the text `c :: rest` and gives what follows it. Comments end in front
of the line feed; strings, numbers, words and operators are as long as they can be. -/
def read (c : Char) (rest : List Char) : Piece × List Char :=
  if isBlank c then (blank c, rest)
  else if c = '/' ∧ rest.head? = some '/' then
    (comment (rest.tail.takeWhile (· ≠ '\n')), rest.tail.dropWhile (· ≠ '\n'))
  else if c = '"' then readString rest
  else if c.isDigit then
    let (text, after) := Numeral.span (c :: rest)
    (number text, after)
  else if isWordStart c then
    (word (c :: rest.takeWhile isWordPart), rest.dropWhile isWordPart)
  else
    match Operator.read? c rest with
    | some (o, after) => (operator o, after)
    | none => (stray c, rest)

/-! ### Nothing is lost -/

/-- A string behind its opening quote, and what follows it, are the whole text. -/
theorem chars_readString_append (s : List Char) :
    (readString s).1.chars ++ (readString s).2 = '"' :: s := by
  have hs := s.takeWhile_append_dropWhile (p := (· ≠ '"'))
  rw [readString]
  split
  · simp [chars]
  · next q rest h =>
    have hq : q = '"' := by
      have hhead := List.head?_dropWhile_not (· ≠ '"') s
      rw [h] at hhead
      simpa using hhead
    rw [h, hq] at hs
    simpa [chars] using hs

/-- The first piece and what follows it are the whole text. -/
theorem chars_read_append (c : Char) (rest : List Char) :
    (read c rest).1.chars ++ (read c rest).2 = c :: rest := by
  rw [read]
  split
  · rfl
  split
  · next h =>
    obtain ⟨more, rfl⟩ := List.head?_eq_some_iff.1 h.2
    simp [chars, h.1]
  split
  · next h => rw [h]; exact chars_readString_append rest
  split
  · exact Numeral.span_append (c :: rest)
  split
  · simp [chars]
  split
  · next h => exact Operator.chars_append_of_read? h
  · rfl

/-- No piece is empty. -/
theorem chars_read_ne_nil (c : Char) (rest : List Char) : (read c rest).1.chars ≠ [] := by
  rw [read]
  split
  · simp [chars]
  split
  · simp [chars]
  split
  · rw [readString]
    split <;> simp [chars]
  split
  · next h =>
    simp only [chars, Numeral.span]
    split <;> simp [h]
  split
  · simp [chars]
  split
  · simpa [chars] using Operator.chars_ne_nil _
  · simp [chars]

/-- Reading a piece shortens the text. -/
theorem length_read_lt (c : Char) (rest : List Char) :
    (read c rest).2.length < (c :: rest).length := by
  have h := congrArg List.length (chars_read_append c rest)
  have hpos := List.length_pos_iff.2 (chars_read_ne_nil c rest)
  simp only [List.length_append] at h
  omega

/-! ### Cutting a whole source -/

/-- The pieces of a text. -/
def cut : List Char → List Piece
  | [] => []
  | c :: rest => (read c rest).1 :: cut (read c rest).2
termination_by s => s.length
decreasing_by exact length_read_lt c rest

@[simp] theorem cut_nil : cut [] = [] := by rw [cut]

theorem cut_cons (c : Char) (rest : List Char) :
    cut (c :: rest) = (read c rest).1 :: cut (read c rest).2 := by rw [cut]

/-- The pieces put together again are the text they were cut from. -/
theorem flatMap_chars_cut (s : List Char) : (cut s).flatMap chars = s := by
  fun_induction cut s with
  | case1 => rfl
  | case2 c rest ih => rw [List.flatMap_cons, ih, chars_read_append]

end Piece

end LoxLexer
