/-!
# Token kinds

The vocabulary of Lox: nineteen operators, sixteen reserved words, and the four kinds whose text
is not fixed. Each operator and each word knows its spelling and its name; a kind's name is the
one that listings print and that `Kind.ofName?` reads.
-/

namespace LoxLexer

/-! ### Operators -/

/-- The operators and punctuation marks. -/
inductive Operator
  | leftParen | rightParen | leftBrace | rightBrace
  | comma | dot | minus | plus | semicolon | slash | star
  | bang | bangEqual | equal | equalEqual
  | greater | greaterEqual | less | lessEqual
  deriving DecidableEq

namespace Operator

/-- Every operator. -/
def all : List Operator :=
  [leftParen, rightParen, leftBrace, rightBrace, comma, dot, minus, plus, semicolon, slash, star,
    bang, bangEqual, equal, equalEqual, greater, greaterEqual, less, lessEqual]

/-- The characters an operator is written with. -/
def chars : Operator → List Char
  | leftParen => ['(']
  | rightParen => [')']
  | leftBrace => ['\x7b']
  | rightBrace => ['\x7d']
  | comma => [',']
  | dot => ['.']
  | minus => ['-']
  | plus => ['+']
  | semicolon => [';']
  | slash => ['/']
  | star => ['*']
  | bang => ['!']
  | bangEqual => ['!', '=']
  | equal => ['=']
  | equalEqual => ['=', '=']
  | greater => ['>']
  | greaterEqual => ['>', '=']
  | less => ['<']
  | lessEqual => ['<', '=']

/-- The name of an operator. -/
def name : Operator → String
  | leftParen => "LeftParen"
  | rightParen => "RightParen"
  | leftBrace => "LeftBrace"
  | rightBrace => "RightBrace"
  | comma => "Comma"
  | dot => "Dot"
  | minus => "Minus"
  | plus => "Plus"
  | semicolon => "Semicolon"
  | slash => "Slash"
  | star => "Star"
  | bang => "Bang"
  | bangEqual => "BangEqual"
  | equal => "Equal"
  | equalEqual => "EqualEqual"
  | greater => "Greater"
  | greaterEqual => "GreaterEqual"
  | less => "Less"
  | lessEqual => "LessEqual"

/-- No operator is empty. -/
theorem chars_ne_nil (o : Operator) : o.chars ≠ [] := by cases o <;> decide

/-- The operator written with `c` alone. -/
def ofChar? (c : Char) : Option Operator := all.find? fun o ↦ o.chars = [c]

/-- The operator that an equals sign makes of another one. -/
def withEqual? (o : Operator) : Option Operator := all.find? fun e ↦ e.chars = o.chars ++ ['=']

/-- Reads the longest operator that the text `c :: rest` begins with, and gives what follows. -/
def read? (c : Char) (rest : List Char) : Option (Operator × List Char) :=
  (ofChar? c).map fun o ↦
    match o.withEqual?, rest with
    | some e, '=' :: more => (e, more)
    | _, _ => (o, rest)

/-- What is looked up for a character is written with it alone. -/
theorem chars_of_ofChar? {c : Char} {o : Operator} (h : ofChar? c = some o) : o.chars = [c] := by
  simpa using List.find?_some h

/-- What is looked up for an operator is that operator with an equals sign behind. -/
theorem chars_of_withEqual? {o e : Operator} (h : o.withEqual? = some e) :
    e.chars = o.chars ++ ['='] := by
  simpa using List.find?_some h

/-- What is read and what follows are the whole text. -/
theorem chars_append_of_read? {c : Char} {rest after : List Char} {o : Operator}
    (h : read? c rest = some (o, after)) : o.chars ++ after = c :: rest := by
  obtain ⟨first, hfirst, h⟩ := Option.map_eq_some_iff.1 h
  have hc := chars_of_ofChar? hfirst
  split at h
  · next he _ =>
    cases h
    simp [chars_of_withEqual? he, hc]
  · cases h
    simp [hc]

end Operator

/-! ### Reserved words -/

/-- The reserved words. -/
inductive Keyword
  | kwAnd | kwClass | kwElse | kwFalse | kwFun | kwFor | kwIf | kwNil | kwOr
  | kwPrint | kwReturn | kwSuper | kwThis | kwTrue | kwVar | kwWhile
  deriving DecidableEq

namespace Keyword

/-- Every reserved word. -/
def all : List Keyword :=
  [kwAnd, kwClass, kwElse, kwFalse, kwFun, kwFor, kwIf, kwNil, kwOr,
    kwPrint, kwReturn, kwSuper, kwThis, kwTrue, kwVar, kwWhile]

/-- The text of a reserved word. -/
def text : Keyword → String
  | kwAnd => "and"
  | kwClass => "class"
  | kwElse => "else"
  | kwFalse => "false"
  | kwFun => "fun"
  | kwFor => "for"
  | kwIf => "if"
  | kwNil => "nil"
  | kwOr => "or"
  | kwPrint => "print"
  | kwReturn => "return"
  | kwSuper => "super"
  | kwThis => "this"
  | kwTrue => "true"
  | kwVar => "var"
  | kwWhile => "while"

/-- The name of a reserved word. -/
def name : Keyword → String
  | kwAnd => "And"
  | kwClass => "Class"
  | kwElse => "Else"
  | kwFalse => "False"
  | kwFun => "Fun"
  | kwFor => "For"
  | kwIf => "If"
  | kwNil => "Nil"
  | kwOr => "Or"
  | kwPrint => "Print"
  | kwReturn => "Return"
  | kwSuper => "Super"
  | kwThis => "This"
  | kwTrue => "True"
  | kwVar => "Var"
  | kwWhile => "While"

/-- The reserved word that a text is, letter case included. -/
def ofText? (w : String) : Option Keyword := all.find? fun k ↦ k.text = w

/-- The table has one entry for each reserved word, and none for any other text. -/
theorem ofText?_eq_some_iff {w : String} {k : Keyword} : ofText? w = some k ↔ k.text = w := by
  constructor
  · intro h
    simpa using List.find?_some h
  · rintro rfl
    cases k <;> rfl

end Keyword

/-! ### Kinds -/

namespace Token

/-- What a token is. -/
inductive Kind
  | operator (o : Operator)
  | identifier
  | string
  | number
  | keyword (k : Keyword)
  | endOfFile
  deriving DecidableEq

namespace Kind

/-- Every kind. -/
def all : List Kind :=
  Operator.all.map operator ++ [identifier, string, number] ++ Keyword.all.map keyword ++
    [endOfFile]

/-- The name of a kind. -/
def name : Kind → String
  | operator o => o.name
  | identifier => "Identifier"
  | string => "String"
  | number => "Number"
  | keyword k => k.name
  | endOfFile => "EndOfFile"

/-- The kind of that name, letter case included. -/
def ofName? (n : String) : Option Kind := all.find? fun k ↦ k.name = n

/-- No two kinds share a name. -/
theorem ofName?_eq_some_iff {n : String} {k : Kind} : ofName? n = some k ↔ k.name = n := by
  constructor
  · intro h
    simpa using List.find?_some h
  · rintro rfl
    rcases k with o | _ | _ | _ | k | _
    · cases o <;> rfl
    · rfl
    · rfl
    · rfl
    · cases k <;> rfl
    · rfl

/-- The kind of a word: its reserved word if it is one, an identifier otherwise. -/
def ofWord (w : String) : Kind := ((Keyword.ofText? w).map keyword).getD identifier

/-- The kinds that count as reserved, each by itself. -/
def isKeyword : Kind → Bool
  | keyword .kwAnd | keyword .kwClass | keyword .kwElse | keyword .kwFalse | keyword .kwFun
  | keyword .kwFor | keyword .kwIf | keyword .kwNil | keyword .kwOr | keyword .kwPrint
  | keyword .kwReturn | keyword .kwSuper | keyword .kwThis | keyword .kwTrue | keyword .kwVar
  | keyword .kwWhile => true
  | _ => false

/-- The kinds whose tokens carry a literal. -/
def isLiteral : Kind → Bool
  | string | number => true
  | _ => false

end Kind

end Token

end LoxLexer
