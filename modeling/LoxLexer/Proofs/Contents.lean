import LoxLexer.Proofs.MaximalMunch

/-!
# What tokens say

Without its position a token is a kind, a lexeme and a literal, and these depend on the piece alone
(`Piece.content?`). So the contents of the tokens of a source can be read off its pieces without
placing them (`contents_lex`). A text whose pieces are given tokens, with nothing but blanks and
comments around them, makes no report and has the contents of just these tokens
(`ReadsAs.reports_lex`, `ReadsAs.contents_lex`); such texts are put together from the back, one
piece at a time.

A reader of a listing sees of a token also on which line and in which column it begins, but not its
offset (`Token.entry`). Lines and columns go by characters, so a text may be exchanged for another
one with characters of other widths, and what stands behind it is still seen in the same place
(`Position.Agrees`). The entry of a piece depends on the piece and on that place alone
(`PlacedPiece.entry_token?`).
-/

namespace LoxLexer

/-! ### Contents -/

/-- What a token says, wherever it stands. -/
structure Token.Content where
  kind : Token.Kind
  lexeme : String
  literal : Option Literal
  deriving DecidableEq

/-- A token without its position. -/
def Token.content (t : Token) : Content := ⟨t.kind, t.lexeme, t.literal⟩

/-- The content of the token that ends every source. -/
def Token.Content.endOfFile : Content := ⟨.endOfFile, "", none⟩

/-- The lexemes of all tokens but the end of the source. -/
def Lexed.lexemes (l : Lexed) : List String :=
  (l.tokens.filter fun t ↦ t.kind ≠ .endOfFile).map Token.lexeme

namespace Piece

/-- The text of a piece. -/
def lexeme (x : Piece) : String := String.ofList x.chars

theorem toList_lexeme (x : Piece) : x.lexeme.toList = x.chars := String.toList_ofList

/-- The content of the token that a piece amounts to. -/
def content? (x : Piece) : Option Token.Content :=
  (PlacedPiece.token? ⟨x, .start⟩).map Token.content

/-- Where a piece is placed has no bearing on what its token says. -/
theorem content_token? (x : PlacedPiece) : x.token?.map Token.content = x.piece.content? := by
  obtain ⟨piece, p⟩ := x
  cases piece with
  | number text =>
    simp only [content?, PlacedPiece.token?, PlacedPiece.event?]
    rcases Numeral.ofChars? text with - | n <;> rfl
  | _ => rfl

/-- What is no token has nothing to say. -/
theorem content?_eq_none {x : Piece} (h : ¬ x.isToken) : x.content? = none := by
  cases x with
  | string _ => exact absurd rfl h
  | number _ => exact absurd rfl h
  | word _ => exact absurd rfl h
  | operator _ => exact absurd rfl h
  | _ => rfl

theorem contents_place (p : Position) (xs : List Piece) :
    ((place p xs).filterMap PlacedPiece.token?).map Token.content = xs.filterMap content? := by
  have hpieces := map_piece_place p xs
  rw [List.map_filterMap, ← hpieces, List.filterMap_map, hpieces]
  exact congrArg (List.filterMap · _) (funext content_token?)

/-- Only the tokens among some pieces have a content. -/
theorem filterMap_content?_filter (xs : List Piece) :
    (xs.filter isToken).filterMap content? = xs.filterMap content? := by
  rw [List.filterMap_filter]
  refine congrArg (List.filterMap · xs) (funext fun x ↦ ?_)
  split
  · rfl
  · next h => exact (content?_eq_none h).symm

end Piece

/-! ### Sources -/

/-- The contents of the tokens of a source are those of its pieces. -/
theorem contents_lex (source : String) : (lex source).tokens.map Token.content =
    (Piece.cut source.toList).filterMap Piece.content? ++ [.endOfFile] := by
  rw [tokens_lex, List.map_append, placedPieces, Piece.contents_place]
  rfl

/-- Tokens of pieces are not the end of the source, and have the lexemes of their pieces. -/
theorem lexemes_of_forall₂ {xs : List Piece} {ts : List Token}
    (h : List.Forall₂ Piece.IsTokenOf xs ts) :
    (ts.filter fun t ↦ t.kind ≠ .endOfFile).map Token.lexeme = xs.map Piece.lexeme := by
  induction h with
  | nil => rfl
  | cons hx _ ih =>
    obtain ⟨hkind, hlexeme⟩ := hx
    rw [List.filter_cons_of_pos (by simpa using hkind.ne_endOfFile), List.map_cons, List.map_cons,
      ih, hlexeme]
    rfl

/-- The lexemes of a source are the texts of its token pieces. -/
theorem lexemes_lex (source : String) :
    (lex source).lexemes = ((Piece.cut source.toList).filter Piece.isToken).map Piece.lexeme := by
  rw [Lexed.lexemes, tokens_lex, List.filter_append, List.map_append]
  show _ ++ [] = _
  rw [List.append_nil]
  exact lexemes_of_forall₂ (Piece.tokens_place .start fun _ ↦ Piece.number_of_mem_cut)

/-- A source makes no report if none of its pieces has a message. -/
theorem reports_lex_eq_nil {source : String}
    (h : ∀ x ∈ Piece.cut source.toList, x.message? = none) : (lex source).reports = [] := by
  have hmessages : (lex source).reports.map Report.message = [] := by
    rw [messages_lex, List.filterMap_eq_nil_iff.2 h]
  exact List.map_eq_nil_iff.1 hmessages

/-! ### Texts of given tokens -/

/-- The text is made of the tokens `xs`, with blanks and comments around them. -/
structure ReadsAs (s : List Char) (xs : List Piece) : Prop where
  clean : ∀ x ∈ Piece.cut s, x.message? = none
  tokens : (Piece.cut s).filter Piece.isToken = xs

namespace ReadsAs

variable {s rest : List Char} {x : Piece} {xs : List Piece}

theorem nil : ReadsAs [] [] := by
  constructor
  · simp
  · rw [Piece.cut_nil]
    rfl

/-- A token in front. -/
theorem token (h : ReadsAs rest xs) (hx : x.IsSound) (hstop : x.StopsAt rest) (htoken : x.isToken) :
    ReadsAs (x.chars ++ rest) (x :: xs) := by
  constructor
  · rw [Piece.cut_append hx hstop]
    refine List.forall_mem_cons.2 ⟨?_, h.clean⟩
    cases x <;> first | rfl | exact absurd htoken (by simp [Piece.isToken])
  · rw [Piece.cut_append hx hstop, List.filter_cons_of_pos htoken, h.tokens]

/-- A blank in front. -/
theorem blank {c : Char} (h : ReadsAs rest xs) (hc : isBlank c) : ReadsAs (c :: rest) xs := by
  have hcut : Piece.cut (c :: rest) = .blank c :: Piece.cut rest :=
    Piece.cut_append (x := .blank c) hc trivial
  constructor
  · rw [hcut]
    exact List.forall_mem_cons.2 ⟨rfl, h.clean⟩
  · rw [hcut, List.filter_cons_of_neg (by simp [Piece.isToken]), h.tokens]

/-- A comment in front, with the line feed that closes it. -/
theorem comment {body : List Char} (h : ReadsAs rest xs) (hbody : '\n' ∉ body) :
    ReadsAs ('/' :: '/' :: (body ++ '\n' :: rest)) xs := by
  have hrest : ReadsAs ('\n' :: rest) xs := h.blank (by decide)
  have hcut : Piece.cut ('/' :: '/' :: (body ++ '\n' :: rest)) =
      .comment body :: Piece.cut ('\n' :: rest) :=
    Piece.cut_append (x := .comment body) hbody (by simp [Piece.StopsAt])
  constructor
  · rw [hcut]
    exact List.forall_mem_cons.2 ⟨rfl, hrest.clean⟩
  · rw [hcut, List.filter_cons_of_neg (by simp [Piece.isToken]), hrest.tokens]

/-- Nothing but tokens, each of which stops at the next. -/
theorem of_chained (h : Piece.Chained xs) (hxs : ∀ x ∈ xs, x.isToken) :
    ReadsAs (xs.flatMap Piece.chars) xs := by
  induction xs with
  | nil => exact nil
  | cons x xs ih =>
    obtain ⟨hx, hstop, hrest⟩ := h
    obtain ⟨htoken, htokens⟩ := List.forall_mem_cons.1 hxs
    exact (ih hrest htokens).token hx hstop htoken

theorem lexemes_lex {source : String} (h : ReadsAs source.toList xs) :
    (lex source).lexemes = xs.map Piece.lexeme := by
  rw [LoxLexer.lexemes_lex, h.tokens]

theorem reports_lex {source : String} (h : ReadsAs source.toList xs) : (lex source).reports = [] :=
  reports_lex_eq_nil h.clean

theorem contents_lex {source : String} (h : ReadsAs source.toList xs) :
    (lex source).tokens.map Token.content = xs.filterMap Piece.content? ++ [.endOfFile] := by
  rw [LoxLexer.contents_lex, ← h.tokens, Piece.filterMap_content?_filter]

end ReadsAs

/-! ### Lines and columns -/

/-- The same line and column, whatever the offsets. -/
structure Position.Agrees (p q : Position) : Prop where
  line : p.line = q.line
  column : p.column = q.column

namespace Position

variable {p q : Position} {s t : List Char}

theorem agrees_refl (p : Position) : p.Agrees p := ⟨rfl, rfl⟩

theorem Agrees.step (h : p.Agrees q) (c : Char) : (p.step c).Agrees (q.step c) := by
  rw [Position.step, Position.step]
  split
  · exact ⟨congrArg (· + 1) h.line, rfl⟩
  · exact ⟨h.line, congrArg (· + 1) h.column⟩

/-- The same text behind either position. -/
theorem Agrees.after (h : p.Agrees q) (text : List Char) :
    (p.after text).Agrees (q.after text) := by
  induction text generalizing p q with
  | nil => exact h
  | cons c text ih => exact ih (h.step c)

/-- A text without line feeds stays on its line and takes one column for each character. -/
theorem after_of_lineFeed_not_mem (h : '\n' ∉ s) (p : Position) :
    (p.after s).line = p.line ∧ (p.after s).column = p.column + s.length := by
  induction s generalizing p with
  | nil => exact ⟨rfl, rfl⟩
  | cons c s ih =>
    obtain ⟨hc, hs⟩ := not_or.1 (mt List.mem_cons.2 h)
    obtain ⟨hline, hcolumn⟩ := ih hs (p.step c)
    have hstep : p.step c = ⟨p.line, p.column + 1, p.offset + c.utf8Size⟩ := if_neg (Ne.symm hc)
    rw [after_cons, hline, hcolumn, hstep, List.length_cons]
    exact ⟨rfl, by rw [Nat.add_assoc, Nat.add_comm 1]⟩

/-- As many characters behind either position, on one line. -/
theorem Agrees.after_of_length_eq (h : p.Agrees q) (hs : '\n' ∉ s) (ht : '\n' ∉ t)
    (hlength : s.length = t.length) : (p.after s).Agrees (q.after t) := by
  obtain ⟨hsline, hscolumn⟩ := after_of_lineFeed_not_mem hs p
  obtain ⟨htline, htcolumn⟩ := after_of_lineFeed_not_mem ht q
  exact ⟨by rw [hsline, htline, h.line], by rw [hscolumn, htcolumn, h.column, hlength]⟩

end Position

/-! ### Entries -/

/-- What a listing tells of a token. -/
structure Token.Entry extends Token.Content where
  line : Nat
  column : Nat
  deriving DecidableEq

/-- A token without its offset. -/
def Token.entry (t : Token) : Entry := ⟨t.content, t.start.line, t.start.column⟩

/-- The end of a source is told of by its line and column. -/
theorem Token.entry_endOfFile {p q : Position} (h : p.Agrees q) :
    (endOfFile p).entry = (endOfFile q).entry := by
  show Entry.mk _ p.line p.column = ⟨_, q.line, q.column⟩
  rw [h.line, h.column]
  rfl

/-- The entry of a piece that is a token. -/
theorem PlacedPiece.entry_token? (x : PlacedPiece) :
    x.token?.map Token.entry =
      x.piece.content?.map (⟨·, x.start.line, x.start.column⟩ : _ → Token.Entry) := by
  rw [← Piece.content_token?, Option.map_map]
  refine Option.map_congr fun t ht ↦ ?_
  show Token.Entry.mk _ t.start.line t.start.column = _
  rw [(eq_of_token? ht).2.2]
  rfl

end LoxLexer
