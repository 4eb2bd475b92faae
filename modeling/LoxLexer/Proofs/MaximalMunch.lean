import LoxLexer.Proofs.Frontiers
import Mathlib.Data.List.Forall2

/-!
# Maximal munch

The lexer and the grammar agree on every text: there is one way to cut a source into first pieces,
and what the lexer returns is read off those pieces. `tokens_place` and `messages_place` carry this
through a list of pieces wherever it begins; `lex_maximal_munch` is the statement for a source.

A number is the one kind of piece that is read twice, first cut off and then parsed. That the second
reading cannot fail rests on the grammar (`Numeral.exists_ofChars?_of_number`).
-/

namespace LoxLexer

namespace Piece

/-- Closed strings, numbers, words and operators. -/
def isToken : Piece → Bool
  | string _ | number _ | word _ | operator _ => true
  | blank _ | comment _ | openString _ | stray _ => false

/-- The message about an open string or a stray character. -/
def message? : Piece → Option String
  | openString _ => some "Unterminated string."
  | stray c => some ("Unexpected character '" ++ c.toString ++ "'.")
  | _ => none

/-- `t` is the token of the piece `x`. -/
def IsTokenOf (x : Piece) (t : Token) : Prop :=
  x.HasKind t.kind ∧ t.lexeme = String.ofList x.chars

end Piece

namespace PlacedPiece

variable {x : PlacedPiece}

/-- Exactly the four kinds of token pieces amount to a token. -/
theorem token?_isSome (hx : ∀ text, x.piece = .number text → Grammar.Number text) :
    x.token?.isSome = x.piece.isToken := by
  obtain ⟨piece, p⟩ := x
  cases piece with
  | number text =>
    obtain ⟨v, hv⟩ := token?_number (hx text rfl)
    rw [hv]
    rfl
  | _ => rfl

theorem message_report? (hx : ∀ text, x.piece = .number text → Grammar.Number text) :
    x.report?.map Report.message = x.piece.message? := by
  obtain ⟨piece, p⟩ := x
  cases piece with
  | number text =>
    rw [report?_number (hx text rfl)]
    rfl
  | _ => rfl

end PlacedPiece

namespace Piece

/-- The tokens of placed pieces are those of the token pieces among them, in order. -/
theorem tokens_place (p : Position) {xs : List Piece}
    (hxs : ∀ text, .number text ∈ xs → Grammar.Number text) :
    List.Forall₂ IsTokenOf (xs.filter isToken)
      ((place p xs).filterMap PlacedPiece.token?) := by
  induction xs generalizing p with
  | nil => exact .nil
  | cons x xs ih =>
    have hrest := ih (p.after x.chars) fun text h ↦ hxs text (List.mem_cons_of_mem _ h)
    have hsome := PlacedPiece.token?_isSome (x := ⟨x, p⟩) fun text h ↦
      hxs text (h ▸ List.mem_cons_self)
    rw [place_cons]
    -- the piece is kept on the one side if and only if it is a token on the other
    rcases htoken : PlacedPiece.token? ⟨x, p⟩ with - | t
    · rw [htoken] at hsome
      rw [List.filterMap_cons_none htoken, List.filter_cons_of_neg (by simp [← hsome])]
      exact hrest
    · rw [htoken] at hsome
      rw [List.filterMap_cons_some htoken, List.filter_cons_of_pos hsome.symm]
      obtain ⟨hkind, hlexeme, -⟩ := PlacedPiece.eq_of_token? htoken
      exact .cons ⟨hkind, hlexeme⟩ hrest

/-- The messages about placed pieces are those about the pieces, in order. -/
theorem messages_place (p : Position) {xs : List Piece}
    (hxs : ∀ text, .number text ∈ xs → Grammar.Number text) :
    ((place p xs).filterMap PlacedPiece.report?).map Report.message = xs.filterMap message? := by
  induction xs generalizing p with
  | nil => rfl
  | cons x xs ih =>
    have hrest := ih (p.after x.chars) fun text h ↦ hxs text (List.mem_cons_of_mem _ h)
    have hmessage := PlacedPiece.message_report? (x := ⟨x, p⟩) fun text h ↦
      hxs text (h ▸ List.mem_cons_self)
    rw [place_cons, List.filterMap_cons, List.filterMap_cons, ← hmessage, ← hrest]
    rcases PlacedPiece.report? ⟨x, p⟩ with - | r <;> rfl

end Piece

/-- The messages of the reports of a source are those about its pieces. -/
theorem messages_lex (source : String) : (lex source).reports.map Report.message =
    (Piece.cut source.toList).filterMap Piece.message? := by
  rw [reports_lex]
  exact Piece.messages_place .start fun _ ↦ Piece.number_of_mem_cut

/-- **Maximal munch.** Every source has exactly one factorization into first pieces. No piece is
empty, and together they are the source. The tokens are those of the closed strings, numbers, words
and operators among the pieces, one for each in order, and a last one that alone marks the end. The
reports are one for each open string and each stray character. A cursor in front of the source gives
the same tokens and reports piece by piece. -/
theorem lex_maximal_munch (source : String) :
    ∃ (pieces : List Piece) (tokens : List Token) (last : Token),
      (∀ xs, Factored source.toList xs ↔ xs = pieces) ∧
      (∀ x ∈ pieces, x.chars ≠ []) ∧
      pieces.flatMap Piece.chars = source.toList ∧
      (lex source).tokens = tokens ++ [last] ∧
      List.Forall₂ Piece.IsTokenOf (pieces.filter Piece.isToken) tokens ∧
      (∀ t ∈ tokens, t.kind ≠ .endOfFile) ∧
      last.kind = .endOfFile ∧ last.lexeme = "" ∧
      (lex source).reports.map Report.message = pieces.filterMap Piece.message? ∧
      (Cursor.ofSource source).drain.value = (lex source).tokens ∧
      (Cursor.ofSource source).drain.reports = (lex source).reports := by
  have hnumber : ∀ text, .number text ∈ Piece.cut source.toList → Grammar.Number text :=
    fun _ ↦ Piece.number_of_mem_cut
  have htokens := Piece.tokens_place .start hnumber
  refine ⟨Piece.cut source.toList, (placedPieces source.toList).filterMap PlacedPiece.token?, _,
    fun _ ↦ factored_iff, fun _ ↦ Piece.chars_ne_nil_of_mem_cut, Piece.flatMap_chars_cut _,
    tokens_lex source, htokens, ?_, rfl, rfl, ?_, drain_ofSource source none⟩
  · intro t ht
    obtain ⟨x, -, hx⟩ := List.mem_filterMap.1 ht
    exact (PlacedPiece.eq_of_token? hx).1.ne_endOfFile
  · rw [reports_lex]
    exact Piece.messages_place .start hnumber

end LoxLexer
