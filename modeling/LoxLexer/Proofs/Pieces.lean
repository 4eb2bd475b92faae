import LoxLexer.Proofs.Borders
import LoxLexer.Bytes

/-!
# Placed pieces and what they amount to

The tokens and the reports of a source are read off its placed pieces one by one (`tokens_lex`,
`reports_lex`), so that everything about them follows from two things: what a single piece amounts
to, and where the pieces lie. A token has the kind and the text of its piece and begins where the
piece does (`eq_of_token?`); a report tells what is wrong with its piece on the line where the piece
ends (`eq_of_report?`). A piece lies behind the text of the pieces before it (`mem_placedPieces`),
which puts positions in order, lines as well as offsets (`Piece.pairwise_place_after`), and no piece
is empty, so that pieces begin one after the other (`start_lt_stop_of_mem_placedPieces`).
-/

namespace LoxLexer

/-! ### Bytes -/

@[simp] theorem byteLength_nil : byteLength [] = 0 := rfl

@[simp] theorem byteLength_cons (c : Char) (s : List Char) :
    byteLength (c :: s) = c.utf8Size + byteLength s := rfl

/-- Lengths in bytes add up. -/
@[simp] theorem byteLength_append (s t : List Char) :
    byteLength (s ++ t) = byteLength s + byteLength t := by
  induction s with
  | nil => rw [List.nil_append, byteLength_nil, Nat.zero_add]
  | cons c s ih => rw [List.cons_append, byteLength_cons, byteLength_cons, ih, Nat.add_assoc]

/-- Only the empty text takes no bytes. -/
theorem byteLength_pos {s : List Char} (h : s ≠ []) : 0 < byteLength s := by
  obtain ⟨c, rest, rfl⟩ := List.exists_cons_of_ne_nil h
  have hc := c.utf8Size_pos
  rw [byteLength_cons]
  omega

/-- The length of a text in bytes is counted character by character. -/
theorem utf8ByteSize_ofList (s : List Char) : (String.ofList s).utf8ByteSize = byteLength s := by
  induction s with
  | nil => rfl
  | cons c s ih =>
    have hcons : String.ofList (c :: s) = String.singleton c ++ String.ofList s := by
      rw [String.singleton_eq_ofList, ← String.ofList_append]
      rfl
    rw [hcons, String.utf8ByteSize_append, String.utf8ByteSize_singleton, ih, byteLength_cons]

/-- A text takes as many bytes as are counted for it. -/
theorem length_encode_ofList (s : List Char) :
    (Utf8.encode (String.ofList s)).length = byteLength s := by
  rw [Utf8.encode, String.toList_ofList]
  induction s with
  | nil => rfl
  | cons c s ih =>
    rw [List.flatMap_cons, List.length_append, ih, String.length_utf8EncodeChar, byteLength_cons]

/-- Without the bytes of its beginning, a text is what comes behind. -/
theorem drop_encode_append (s t : List Char) :
    (Utf8.encode (String.ofList (s ++ t))).drop (byteLength s) =
      Utf8.encode (String.ofList t) := by
  rw [String.ofList_append, Utf8.encode_append, ← length_encode_ofList, List.drop_left]

/-- The offset behind a text at the start of a source is the number of its bytes. -/
theorem offset_start_after (text : List Char) :
    (Position.start.after text).offset = byteLength text := by
  rw [Position.offset_after, show Position.start.offset = 0 from rfl, Nat.zero_add]

/-- The line behind a text at the start of a source counts its line feeds. -/
theorem line_start_after (text : List Char) :
    (Position.start.after text).line = 1 + text.count '\n' :=
  Position.line_after _ _

/-- The offset at the end of a source is its length in bytes. -/
theorem offset_start_after_toList (source : String) :
    (Position.start.after source.toList).offset = source.utf8ByteSize := by
  rw [offset_start_after, ← utf8ByteSize_ofList, String.ofList_toList]

/-! ### The pieces of a text -/

namespace Piece

theorem chars_ne_nil_of_mem_cut {s : List Char} {x : Piece} (h : x ∈ cut s) : x.chars ≠ [] :=
  (isSound_of_mem_cut h).chars_ne_nil

/-- A piece that is taken for a number has the text of one. -/
theorem number_of_mem_cut {s t : List Char} (h : .number t ∈ cut s) : Grammar.Number t :=
  isSound_of_mem_cut h

end Piece

/-! ### What a piece amounts to -/

namespace PlacedPiece

/-- The token a piece amounts to. -/
def token? (x : PlacedPiece) : Option Token := x.event?.bind Event.token?

/-- The report a piece amounts to. -/
def report? (x : PlacedPiece) : Option Report := x.event?.bind Event.report?

end PlacedPiece

/-- The tokens of a source are those of its pieces, and its end. -/
theorem tokens_lex (source : String) :
    (lex source).tokens = (placedPieces source.toList).filterMap PlacedPiece.token? ++
      [Token.endOfFile (Position.start.after source.toList)] := by
  show (events source.toList).filterMap Event.token? ++ _ = _
  rw [events, List.filterMap_filterMap]
  rfl

/-- The reports of a source are those of its pieces. -/
theorem reports_lex (source : String) :
    (lex source).reports = (placedPieces source.toList).filterMap PlacedPiece.report? := by
  show (events source.toList).filterMap Event.report? = _
  rw [events, List.filterMap_filterMap]
  rfl

namespace Piece

/-- The kind of the token that a piece is. Blanks, comments, open strings and stray characters have
none. -/
inductive HasKind : Piece → Token.Kind → Prop
  | string (body : List Char) : HasKind (.string body) .string
  | number (text : List Char) : HasKind (.number text) .number
  | keyword (k : Keyword) : HasKind (.word k.text.toList) (.keyword k)
  | identifier {text : List Char} (h : ∀ k : Keyword, k.text.toList ≠ text) :
      HasKind (.word text) .identifier
  | operator (o : Operator) : HasKind (.operator o) (.operator o)

/-- No piece is the end of the source. -/
theorem HasKind.ne_endOfFile {x : Piece} {k : Token.Kind} (h : x.HasKind k) : k ≠ .endOfFile := by
  rintro rfl
  cases h

/-- A word has the kind that the table has for it, or that of an identifier. -/
theorem hasKind_word (text : List Char) :
    HasKind (.word text) (.ofWord (String.ofList text)) := by
  rw [Token.Kind.ofWord]
  rcases h : Keyword.ofText? (String.ofList text) with - | k
  · refine .identifier fun k hk ↦ ?_
    rw [← hk, String.ofList_toList, Keyword.ofText?_eq_some_iff.2 rfl] at h
    exact absurd h (by simp)
  · have htext : k.text.toList = text := by
      rw [Keyword.ofText?_eq_some_iff.1 h, String.toList_ofList]
    exact htext ▸ .keyword k

/-- What is wrong with a piece. -/
inductive HasProblem : Piece → Problem → Prop
  | stray (c : Char) : HasProblem (.stray c) (.unexpected c)
  | openString (body : List Char) : HasProblem (.openString body) .unterminated
  | number (text : List Char) : HasProblem (.number text) (.malformedNumber (String.ofList text))

end Piece

namespace PlacedPiece

/-- A piece is a token of its kind, with its text, where it begins. -/
theorem eq_of_token? {x : PlacedPiece} {t : Token} (h : x.token? = some t) :
    x.piece.HasKind t.kind ∧ t.lexeme = x.lexeme ∧ t.start = x.start := by
  obtain ⟨piece, p⟩ := x
  cases piece with
  | number text =>
    simp only [token?, event?, toToken, toReport] at h
    split at h
    · cases h
      exact ⟨.number text, rfl, rfl⟩
    · cases h
  | word text =>
    cases h
    exact ⟨Piece.hasKind_word text, rfl, rfl⟩
  | string body =>
    cases h
    exact ⟨.string body, rfl, rfl⟩
  | operator o =>
    cases h
    exact ⟨.operator o, rfl, rfl⟩
  | blank _ => cases h
  | comment _ => cases h
  | openString _ => cases h
  | stray _ => cases h

/-- A number is a token wherever it stands, and always with the same value. -/
theorem token?_number {text : List Char} (h : Grammar.Number text) : ∃ v : Binary64, ∀ p,
    token? ⟨.number text, p⟩ = some ⟨.number, String.ofList text, some (.number v), p⟩ := by
  obtain ⟨n, hn⟩ := Numeral.exists_ofChars?_of_number h
  refine ⟨.nearest n.toDecimal, fun p ↦ ?_⟩
  simp only [token?, event?, hn]
  rfl

/-- A report is about a problem that the piece has, on the line where the piece ends. -/
theorem eq_of_report? {x : PlacedPiece} {r : Report} (h : x.report? = some r) :
    x.piece.HasProblem r.problem ∧ r.line = x.stop.line := by
  obtain ⟨piece, p⟩ := x
  cases piece with
  | number text =>
    simp only [report?, event?, toToken, toReport] at h
    split at h
    · cases h
    · cases h
      exact ⟨.number text, rfl⟩
  | openString body =>
    cases h
    exact ⟨.openString body, rfl⟩
  | stray c =>
    cases h
    exact ⟨.stray c, rfl⟩
  | word _ => cases h
  | string _ => cases h
  | operator _ => cases h
  | blank _ => cases h
  | comment _ => cases h

/-- What is a token makes no report. -/
theorem report?_eq_none_of_token? {x : PlacedPiece} {t : Token} (h : x.token? = some t) :
    x.report? = none := by
  obtain ⟨e, he, het⟩ := Option.bind_eq_some_iff.1 h
  rcases e with t' | r
  · show x.event?.bind Event.report? = none
    rw [he]
    rfl
  · exact absurd het (by simp [Event.token?])

/-- A number makes no report, for its text can always be read as one. -/
theorem report?_number {text : List Char} (h : Grammar.Number text) (p : Position) :
    report? ⟨.number text, p⟩ = none := by
  obtain ⟨v, hv⟩ := token?_number h
  exact report?_eq_none_of_token? (hv p)

end PlacedPiece

/-! ### Where the pieces lie -/

/-- The byte offset behind a token. -/
def Token.stopOffset (t : Token) : Nat := t.start.offset + t.lexeme.utf8ByteSize

namespace PlacedPiece

/-- A piece ends as many bytes behind its start as its text takes. -/
theorem offset_stop (x : PlacedPiece) :
    x.stop.offset = x.start.offset + byteLength x.piece.chars :=
  Position.offset_after _ _

/-- A token ends where its piece does. -/
theorem stopOffset_of_token? {x : PlacedPiece} {t : Token} (h : x.token? = some t) :
    t.stopOffset = x.stop.offset := by
  obtain ⟨-, hlexeme, hstart⟩ := eq_of_token? h
  rw [Token.stopOffset, hlexeme, hstart, lexeme, utf8ByteSize_ofList, offset_stop]

end PlacedPiece

namespace Piece

variable {p : Position} {xs : List Piece}

/-- Putting pieces in their places does not change them. -/
@[simp] theorem map_piece_place (p : Position) (xs : List Piece) :
    (place p xs).map PlacedPiece.piece = xs := by
  induction xs generalizing p with
  | nil => rfl
  | cons x xs ih => rw [place_cons, List.map_cons, ih]

/-- A placed piece lies behind the text of the pieces before it. -/
theorem mem_place {y : PlacedPiece} (h : y ∈ place p xs) :
    ∃ before after, xs = before ++ y.piece :: after ∧ y.start = p.after (before.flatMap chars) := by
  induction xs generalizing p with
  | nil => simp at h
  | cons x xs ih =>
    rcases List.mem_cons.1 (place_cons p x xs ▸ h) with rfl | h
    · exact ⟨[], xs, rfl, rfl⟩
    · obtain ⟨before, after, rfl, hstart⟩ := ih h
      exact ⟨x :: before, after, rfl, by rw [hstart, List.flatMap_cons, Position.after_append]⟩

/-- Placed pieces in two parts are two parts of the pieces, the second behind the text of the
first. -/
theorem place_eq_append {ys zs : List PlacedPiece} (h : place p xs = ys ++ zs) :
    ∃ before after, xs = before ++ after ∧ ys = place p before ∧
      zs = place (p.after (before.flatMap chars)) after := by
  induction ys generalizing p xs with
  | nil => exact ⟨[], xs, rfl, rfl, h.symm⟩
  | cons y ys ih =>
    cases xs with
    | nil => simp at h
    | cons x xs =>
      rw [place_cons, List.cons_append] at h
      obtain ⟨rfl, hrest⟩ := List.cons.inj h
      obtain ⟨before, after, rfl, rfl, rfl⟩ := ih hrest
      exact ⟨x :: before, after, rfl, rfl, by rw [List.flatMap_cons, Position.after_append]⟩

/-- Every piece begins behind some text behind the one before it. -/
theorem pairwise_place_after (p : Position) (xs : List Piece) :
    (place p xs).Pairwise fun x y ↦ ∃ text, y.start = x.stop.after text := by
  induction xs generalizing p with
  | nil => exact .nil
  | cons x xs ih =>
    rw [place_cons]
    refine .cons (fun y hy ↦ ?_) (ih _)
    obtain ⟨before, -, -, hstart⟩ := mem_place hy
    exact ⟨before.flatMap chars, hstart⟩

/-- Every piece ends before the next one begins. -/
theorem pairwise_place (p : Position) (xs : List Piece) :
    (place p xs).Pairwise fun x y ↦ x.stop.offset ≤ y.start.offset := by
  refine (pairwise_place_after p xs).imp fun ⟨text, hstart⟩ ↦ ?_
  rw [hstart, Position.offset_after]
  exact Nat.le_add_right _ _

end Piece

/-- A piece stands behind the text in front of it. -/
theorem mem_placedPieces {text : List Char} {x : PlacedPiece} (h : x ∈ placedPieces text) :
    ∃ before after, text = before ++ (x.piece.chars ++ after) ∧
      x.start = Position.start.after before := by
  obtain ⟨before, after, hcut, hstart⟩ := Piece.mem_place h
  refine ⟨before.flatMap Piece.chars, after.flatMap Piece.chars, ?_, hstart⟩
  rw [← Piece.flatMap_chars_cut text, hcut, List.flatMap_append, List.flatMap_cons]

theorem piece_mem_cut {text : List Char} {x : PlacedPiece} (h : x ∈ placedPieces text) :
    x.piece ∈ Piece.cut text := by
  have hpiece : x.piece ∈ (placedPieces text).map PlacedPiece.piece := List.mem_map_of_mem h
  rwa [placedPieces, Piece.map_piece_place] at hpiece

theorem chars_ne_nil_of_mem_placedPieces {text : List Char} {x : PlacedPiece}
    (h : x ∈ placedPieces text) : x.piece.chars ≠ [] :=
  Piece.chars_ne_nil_of_mem_cut (piece_mem_cut h)

/-- A token of a source is that of a piece, or the end of the source. -/
theorem mem_tokens_lex {source : String} {t : Token} (h : t ∈ (lex source).tokens) :
    (∃ x ∈ placedPieces source.toList, x.token? = some t) ∨
      t = Token.endOfFile (Position.start.after source.toList) := by
  rw [tokens_lex, List.mem_append, List.mem_filterMap, List.mem_singleton] at h
  exact h

/-- Every piece takes up room. -/
theorem start_lt_stop_of_mem_placedPieces {text : List Char} {x : PlacedPiece}
    (h : x ∈ placedPieces text) : x.start.offset < x.stop.offset := by
  have hpos := byteLength_pos (chars_ne_nil_of_mem_placedPieces h)
  rw [PlacedPiece.offset_stop]
  omega

/-- The end of the source lies behind some text behind every piece. -/
theorem after_of_mem_placedPieces {text : List Char} {x : PlacedPiece}
    (h : x ∈ placedPieces text) : ∃ rest, Position.start.after text = x.stop.after rest := by
  obtain ⟨before, after, htext, hstart⟩ := mem_placedPieces h
  exact ⟨after, by rw [htext, PlacedPiece.stop, hstart, Position.after_append,
    Position.after_append]⟩

/-- No piece goes beyond the end of the source. -/
theorem stop_le_of_mem_placedPieces {text : List Char} {x : PlacedPiece}
    (h : x ∈ placedPieces text) : x.stop.offset ≤ (Position.start.after text).offset := by
  obtain ⟨rest, hend⟩ := after_of_mem_placedPieces h
  rw [hend, Position.offset_after]
  exact Nat.le_add_right _ _

end LoxLexer
