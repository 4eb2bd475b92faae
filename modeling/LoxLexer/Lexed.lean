import LoxLexer.Piece.Basic
import LoxLexer.Report
import LoxLexer.Token.Basic

/-!
# Lexing a source

A source is cut into pieces once and for all. A piece in its place amounts to a token, to a report,
or to nothing: blanks and comments are passed over in silence. Whether it does, and to what, depends
on the piece and on where it begins. Where the pieces of a source begin follows by counting along
(`Piece.place`), so nothing else of what went before bears on them (`place_append`).

The tokens and reports are then sorted out of what the pieces amount to. A problem never stops the
lexer. The end of the source adds one last token, so there is always exactly one of that kind and it
stands at the end.
-/

namespace LoxLexer

/-! ### What pieces amount to -/

/-- A token read or a problem noticed. -/
inductive Event
  | token (t : Token)
  | report (r : Report)
  deriving DecidableEq

namespace Event

def token? : Event → Option Token
  | token t => some t
  | report _ => none

def report? : Event → Option Report
  | token _ => none
  | report r => some r

end Event

/-! ### Pieces in their places -/

/-- A piece and where it begins. -/
structure PlacedPiece where
  piece : Piece
  start : Position
  deriving DecidableEq

namespace PlacedPiece

/-- The position behind a piece. -/
def stop (x : PlacedPiece) : Position := x.start.after x.piece.chars

/-- The text of a piece. -/
def lexeme (x : PlacedPiece) : String := String.ofList x.piece.chars

/-- The piece as a token. -/
def toToken (x : PlacedPiece) (kind : Token.Kind) (literal : Option Literal) : Event :=
  .token ⟨kind, x.lexeme, literal, x.start⟩

/-- A problem with the piece, noticed at its end. -/
def toReport (x : PlacedPiece) (problem : Problem) : Event := .report ⟨x.stop.line, problem⟩

/-- The token or the report that a piece amounts to. -/
def event? (x : PlacedPiece) : Option Event :=
  match x.piece with
  | .blank _ => none
  | .comment _ => none
  | .string body => some (x.toToken .string (some (.string (String.ofList body))))
  | .openString _ => some (x.toReport .unterminated)
  | .number text =>
    match Numeral.ofChars? text with
    | some n => some (x.toToken .number (some (.number (.nearest n.toDecimal))))
    | none => some (x.toReport (.malformedNumber x.lexeme))
  | .word _ => some (x.toToken (.ofWord x.lexeme) none)
  | .operator o => some (x.toToken (.operator o) none)
  | .stray c => some (x.toReport (.unexpected c))

end PlacedPiece

namespace Piece

/-- Puts consecutive pieces in their places, the first of them at `p`. -/
def place : Position → List Piece → List PlacedPiece
  | _, [] => []
  | p, piece :: rest => ⟨piece, p⟩ :: place (p.after piece.chars) rest

@[simp] theorem place_nil (p : Position) : place p [] = [] := rfl

theorem place_cons (p : Position) (piece : Piece) (rest : List Piece) :
    place p (piece :: rest) = ⟨piece, p⟩ :: place (p.after piece.chars) rest := rfl

/-- Pieces behind others are put where the text of those ends. -/
theorem place_append (p : Position) (s t : List Piece) :
    place p (s ++ t) = place p s ++ place (p.after (s.flatMap chars)) t := by
  induction s generalizing p with
  | nil => rfl
  | cons piece s ih => simp [place_cons, ih]

end Piece

/-! ### Whole sources -/

/-- The outcome of lexing: the tokens and the reports, each in source order. -/
structure Lexed where
  tokens : List Token
  reports : List Report
  deriving DecidableEq

/-- The pieces of a source in their places. -/
def placedPieces (text : List Char) : List PlacedPiece := Piece.place .start (Piece.cut text)

/-- The events of a source. -/
def events (text : List Char) : List Event := (placedPieces text).filterMap PlacedPiece.event?

/-- Lexes a whole source. -/
def lex (source : String) : Lexed where
  tokens := (events source.toList).filterMap Event.token? ++
    [Token.endOfFile (Position.start.after source.toList)]
  reports := (events source.toList).filterMap Event.report?

end LoxLexer
