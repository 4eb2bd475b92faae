import LoxLexer.Number.Binary64
import LoxLexer.Position
import LoxLexer.Token.Kind

/-!
# Tokens

A token keeps the piece of source it was read from, what that piece means, and where it begins.
Tokens are compared field by field with numbers compared as numbers, so the comparison (`==`) is
kept apart from equality: two tokens that hold a NaN would be equal and yet compare as different.
-/

namespace LoxLexer

/-- What the text of a token stands for. -/
inductive Literal
  | string (s : String)
  | number (x : Binary64)
  deriving DecidableEq

namespace Literal

/-- The literal as it is printed: a string as it stands, a number by its shortest decimal. -/
def text : Literal → String
  | string s => s
  | number x => x.text

instance : BEq Literal where
  beq
    | string s, string t => s == t
    | number x, number y => x == y
    | _, _ => false

end Literal

/-- A token: its kind, its text in the source, its literal if it has one, and where it begins. -/
structure Token where
  kind : Token.Kind
  lexeme : String
  literal : Option Literal
  start : Position
  deriving DecidableEq

namespace Token

/-- The token that ends every source. -/
def endOfFile (p : Position) : Token := ⟨.endOfFile, "", none, p⟩

/-- The name of the kind, the lexeme and the literal if there is one, with a blank in between. -/
def display (t : Token) : String :=
  match t.literal with
  | none => t.kind.name ++ " " ++ t.lexeme
  | some l => t.kind.name ++ " " ++ t.lexeme ++ " " ++ l.text

instance : BEq Token where
  beq s t :=
    s.kind == t.kind && s.lexeme == t.lexeme && s.literal == t.literal && s.start == t.start

end Token

end LoxLexer
