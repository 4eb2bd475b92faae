import LoxLexer.Proofs.Pieces
import Mathlib.Data.List.DropRight

/-!
# Where tokens lie

A position carries its three counts along with the text, one character at a time. Here they are
compared with counts over the whole text before a token: line feeds, characters behind the last line
feed, and bytes (`Token.IsLocated`). The only count that is not additive is the column
(`Position.column_after`), which starts again behind every line feed; its last line is taken from
the end of the text.
-/

namespace LoxLexer

/-! ### Columns -/

namespace Position

theorem column_step (p : Position) (c : Char) :
    (p.step c).column = if c = '\n' then 1 else p.column + 1 := by
  rw [step]
  split <;> rfl

/-- The column counts the characters behind the last line feed. -/
theorem column_after (text : List Char) :
    (start.after text).column = 1 + (text.rtakeWhile (· ≠ '\n')).length := by
  induction text using List.reverseRecOn with
  | nil => rfl
  | append_singleton text c ih =>
    rw [after_append, after_cons, after_nil, column_step, List.rtakeWhile_concat, ih]
    by_cases hc : c = '\n'
    · simp [hc]
    · simp [hc]
      omega

end Position

/-! ### The text before an offset -/

/-- The characters of a text that begin before the byte offset `n`. -/
def textBefore : List Char → Nat → List Char
  | [], _ => []
  | c :: rest, n => if n = 0 then [] else c :: textBefore rest (n - c.utf8Size)

/-- The text before an offset at which a character begins. -/
theorem textBefore_append (before after : List Char) :
    textBefore (before ++ after) (byteLength before) = before := by
  induction before with
  | nil => cases after <;> rfl
  | cons c before ih =>
    have hc := c.utf8Size_pos
    rw [List.cons_append, textBefore, byteLength_cons, if_neg (by omega), Nat.add_sub_cancel_left,
      ih]

/-! ### Located tokens -/

/-- A token lies where its position says. -/
structure Token.IsLocated (t : Token) (source : String) : Prop where
  /-- The offset is a boundary between characters. -/
  boundary : (⟨t.start.offset⟩ : String.Pos.Raw).IsValid source
  /-- The bytes from the offset on, as many as the lexeme has, are the bytes of the lexeme. -/
  bytes : ((Utf8.encode source).drop t.start.offset).take t.lexeme.utf8ByteSize =
    Utf8.encode t.lexeme
  /-- The line counts the line feeds before the offset. -/
  line : t.start.line = 1 + (textBefore source.toList t.start.offset).count '\n'
  /-- The column counts the characters between the last line feed before the offset, or the start
  of the source, and the offset. -/
  column : t.start.column =
    1 + ((textBefore source.toList t.start.offset).rtakeWhile (· ≠ '\n')).length

/-- A token is located if its position is the one behind the text before it. -/
theorem Token.isLocated_of_start {t : Token} {source : String} {before lexeme after : List Char}
    (hsource : source.toList = before ++ (lexeme ++ after)) (hlexeme : t.lexeme = .ofList lexeme)
    (hstart : t.start = Position.start.after before) : t.IsLocated source := by
  have hoffset : t.start.offset = byteLength before := by rw [hstart, offset_start_after]
  have hstring :
      source = String.ofList before ++ (String.ofList lexeme ++ String.ofList after) := by
    rw [← String.ofList_append, ← String.ofList_append, ← hsource, String.ofList_toList]
  constructor
  · rw [String.Pos.Raw.isValid_iff_exists_append]
    refine ⟨_, _, hstring, ?_⟩
    rw [hoffset, ← utf8ByteSize_ofList]
    rfl
  · rw [hoffset, hlexeme, hstring, ← String.ofList_append, ← String.ofList_append,
      drop_encode_append, String.ofList_append, Utf8.encode_append, utf8ByteSize_ofList,
      ← length_encode_ofList, List.take_left]
  · rw [hoffset, hsource, textBefore_append, hstart, line_start_after]
  · rw [hoffset, hsource, textBefore_append, hstart, Position.column_after]

/-- The token of a placed piece is where the piece was placed. -/
theorem isLocated_of_token? {source : String} {x : PlacedPiece} {t : Token}
    (hx : x ∈ placedPieces source.toList) (ht : x.token? = some t) : t.IsLocated source := by
  obtain ⟨before, after, hsource, hstart⟩ := mem_placedPieces hx
  obtain ⟨-, hlexeme, htstart⟩ := PlacedPiece.eq_of_token? ht
  exact Token.isLocated_of_start hsource hlexeme (htstart.trans hstart)

theorem isLocated_endOfFile (source : String) :
    (Token.endOfFile (Position.start.after source.toList)).IsLocated source :=
  Token.isLocated_of_start (List.append_nil _).symm rfl rfl

/-! ### All tokens of a source -/

/-- **Token positions.** Every token is located where its position says, the end of the source
behind its last byte. The tokens follow one another without overlap, and only the end of the source
is empty. -/
theorem tokens_located (source : String) :
    (∀ t ∈ (lex source).tokens, t.IsLocated source) ∧
    (∀ t ∈ (lex source).tokens, t.kind = .endOfFile → t.start.offset = source.utf8ByteSize) ∧
    (lex source).tokens.Pairwise (fun s t ↦
      s.start.offset + s.lexeme.utf8ByteSize ≤ t.start.offset) ∧
    ∀ t ∈ (lex source).tokens, t.kind ≠ .endOfFile → 0 < t.lexeme.utf8ByteSize := by
  rw [tokens_lex]
  refine ⟨fun t ht ↦ ?_, fun t ht hkind ↦ ?_, ?_, fun t ht hkind ↦ ?_⟩
  · rcases List.mem_append.1 ht with ht | ht
    · obtain ⟨x, hx, hxt⟩ := List.mem_filterMap.1 ht
      exact isLocated_of_token? hx hxt
    · rw [List.mem_singleton.1 ht]
      exact isLocated_endOfFile source
  · rcases List.mem_append.1 ht with ht | ht
    · obtain ⟨x, -, hxt⟩ := List.mem_filterMap.1 ht
      exact absurd hkind (PlacedPiece.eq_of_token? hxt).1.ne_endOfFile
    · rw [List.mem_singleton.1 ht]
      exact offset_start_after_toList source
  · refine List.pairwise_append.2 ⟨?_, List.pairwise_singleton _ _, ?_⟩
    · -- tokens lie where their pieces do, one piece behind the other
      refine List.pairwise_filterMap.2 ((Piece.pairwise_place .start _).imp ?_)
      intro x y hxy s hs t ht
      rw [← PlacedPiece.stopOffset_of_token? hs, ← (PlacedPiece.eq_of_token? ht).2.2] at hxy
      exact hxy
    · intro s hs t ht
      obtain ⟨x, hx, hxs⟩ := List.mem_filterMap.1 hs
      have hstop := stop_le_of_mem_placedPieces hx
      rw [← PlacedPiece.stopOffset_of_token? hxs] at hstop
      rw [List.mem_singleton.1 ht]
      exact hstop
  · rcases List.mem_append.1 ht with ht | ht
    · obtain ⟨x, hx, hxt⟩ := List.mem_filterMap.1 ht
      rw [(PlacedPiece.eq_of_token? hxt).2.1, PlacedPiece.lexeme, utf8ByteSize_ofList]
      exact byteLength_pos (chars_ne_nil_of_mem_placedPieces hx)
    · rw [List.mem_singleton.1 ht] at hkind
      exact absurd rfl hkind

end LoxLexer
