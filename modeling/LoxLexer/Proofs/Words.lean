import LoxLexer.Proofs.Pieces

/-!
# Words and reserved words

Which words are reserved is said in three places: in the table (`Keyword.ofText?`), by the kinds
(`Token.Kind.isKeyword`) and by the reader, which knows of words only and looks one up once it has
all of it. The kinds listed are those that the table can give (`isKeyword_iff`). That the reader
agrees rests on one fact about tokens: the lexeme alone decides whether a token is a word and of
which kind (`word_of_isWord`, `kind_eq_ofWord`), since sound pieces are told apart by their
characters. So a reserved word counts only where it stands as a piece of its own,
which in a string, in a comment or inside a longer word it does not.

In the other direction a word that is a source of its own is read as one token (`lex_of_word`), and
reserved words are words (`Keyword.word_text`).
-/

namespace LoxLexer

/-! ### Kinds of words -/

namespace Token.Kind

variable {k : Kind} {w : String}

/-- The kinds listed as reserved are those of the reserved words, one by one. -/
theorem isKeyword_iff : k.isKeyword ↔ ∃ e, k = keyword e := by
  refine ⟨fun h ↦ ?_, ?_⟩
  · cases k with
    | keyword e => exact ⟨e, rfl⟩
    | operator | identifier | string | number | endOfFile => exact absurd h Bool.false_ne_true
  · rintro ⟨e, rfl⟩
    cases e <;> rfl

/-- The kinds of words: the reserved words and the identifiers. -/
def IsWord (k : Kind) : Prop := k.isKeyword ∨ k = identifier

/-- Whatever the table says of a word, its kind is that of a word. -/
theorem isWord_ofWord (w : String) : (ofWord w).IsWord := by
  rw [ofWord]
  rcases Keyword.ofText? w with - | e
  · exact .inr rfl
  · exact .inl (isKeyword_iff.2 ⟨e, rfl⟩)

/-- A word is an identifier exactly if the table has no entry for it. -/
theorem ofWord_eq_identifier_iff : ofWord w = identifier ↔ Keyword.ofText? w = none := by
  rw [ofWord]
  rcases Keyword.ofText? w with - | k
  · exact iff_of_true rfl rfl
  · exact iff_of_false Kind.noConfusion (Option.some_ne_none k)

/-- The entry of the table for a word is the kind of the word, if that is a reserved one. -/
theorem map_keyword_eq_some_iff :
    (Keyword.ofText? w).map keyword = some k ↔ k.isKeyword ∧ k = ofWord w := by
  rw [ofWord]
  rcases Keyword.ofText? w with - | e
  · refine iff_of_false (Option.some_ne_none k).symm fun h ↦ ?_
    have hkeyword := h.1
    rw [h.2] at hkeyword
    exact Bool.false_ne_true hkeyword
  · refine ⟨fun h ↦ ?_, fun h ↦ congrArg some h.2.symm⟩
    obtain rfl := Option.some.inj h
    exact ⟨isKeyword_iff.2 ⟨e, rfl⟩, rfl⟩

end Token.Kind

/-- Every reserved word is a word. -/
theorem Keyword.word_text (k : Keyword) : Grammar.Word k.text.toList := by
  have hchars : ∃ c rest, k.text.toList = c :: rest ∧ isWordStart c ∧ rest.all isWordPart := by
    cases k <;> exact ⟨_, _, rfl, by decide, by decide⟩
  obtain ⟨c, rest, htext, hc, hrest⟩ := hchars
  exact ⟨c, rest, htext, Grammar.isWordStart_iff.1 hc, fun d hd ↦
    Grammar.isWordPart_iff.1 (List.all_eq_true.1 hrest d hd)⟩

/-! ### Tokens that are words -/

theorem Piece.HasKind.exists_word {x : Piece} {k : Token.Kind} (h : x.HasKind k) (hk : k.IsWord) :
    ∃ text, x = .word text := by
  match h with
  | .keyword _ => exact ⟨_, rfl⟩
  | .identifier _ => exact ⟨_, rfl⟩
  | .string _ => exact absurd hk (by simp [Token.Kind.IsWord, Token.Kind.isKeyword])
  | .number _ => exact absurd hk (by simp [Token.Kind.IsWord, Token.Kind.isKeyword])
  | .operator _ => exact absurd hk (by simp [Token.Kind.IsWord, Token.Kind.isKeyword])

variable {source : String} {t : Token}

/-- The token of a word, wherever it stands. -/
theorem PlacedPiece.token?_word (text : List Char) (p : Position) : token? ⟨.word text, p⟩ =
    some ⟨.ofWord (String.ofList text), String.ofList text, none, p⟩ := rfl

/-- A token of a word kind is a word, and the table decides of which kind. -/
theorem word_of_isWord (ht : t ∈ (lex source).tokens) (hkind : t.kind.IsWord) :
    Grammar.Word t.lexeme.toList ∧ t.kind = .ofWord t.lexeme := by
  rcases mem_tokens_lex ht with ⟨⟨x, p⟩, hx, hxt⟩ | rfl
  · have hsound := Piece.isSound_of_mem_cut (piece_mem_cut hx)
    obtain ⟨text, rfl⟩ := (PlacedPiece.eq_of_token? hxt).1.exists_word hkind
    obtain rfl := Option.some.inj ((PlacedPiece.token?_word text p).symm.trans hxt)
    rw [String.toList_ofList]
    exact ⟨hsound, rfl⟩
  · exact absurd hkind (by simp [Token.Kind.IsWord, Token.Kind.isKeyword, Token.endOfFile])

/-- **A lexeme that is a word** makes a word token: no other piece has such characters. -/
theorem kind_eq_ofWord (ht : t ∈ (lex source).tokens) (hword : Grammar.Word t.lexeme.toList) :
    t.kind = .ofWord t.lexeme := by
  rcases mem_tokens_lex ht with ⟨⟨x, p⟩, hx, hxt⟩ | rfl
  · have hsound : x.IsSound := Piece.isSound_of_mem_cut (piece_mem_cut hx)
    have hlexeme : t.lexeme = String.ofList x.chars := (PlacedPiece.eq_of_token? hxt).2.1
    rw [hlexeme, String.toList_ofList] at hword
    obtain ⟨text, rfl⟩ : ∃ text, x = .word text := ⟨x.chars, hsound.eq_of_chars hword rfl⟩
    obtain rfl := Option.some.inj ((PlacedPiece.token?_word text p).symm.trans hxt)
    rfl
  · obtain ⟨c, rest, hnil, -⟩ := hword
    exact absurd hnil.symm (List.cons_ne_nil c rest)

/-! ### Words that are sources -/

/-- **A word as a source** is one token from end to end. -/
theorem lex_of_word {w : String} (h : Grammar.Word w.toList) :
    lex w = ⟨[⟨.ofWord w, w, none, .start⟩, .endOfFile (Position.start.after w.toList)], []⟩ := by
  have hcut : Piece.cut w.toList = [.word w.toList] := Piece.cut_chars (x := .word w.toList) h
  have hpieces : placedPieces w.toList = [⟨.word w.toList, .start⟩] := by
    rw [placedPieces, hcut, Piece.place_cons, Piece.place_nil]
  have hevents : events w.toList = [.token ⟨.ofWord w, w, none, .start⟩] := by
    rw [events, hpieces]
    show [Event.token ⟨.ofWord (String.ofList w.toList), String.ofList w.toList, none, _⟩] = _
    rw [String.ofList_toList]
  rw [lex, hevents]
  rfl

/-! ### The three agree -/

/-- **Reserved words.** The table has an entry for a text exactly if the text, as a source of its
own, is read as one token of that kind without any report, and the kind is that of a keyword. Any
token of any source is a keyword exactly if the table has its kind for its lexeme, and an identifier
exactly if its lexeme is a word for which the table has none. Every word is read as one token from
end to end, which is of one of these kinds. -/
theorem reserved_words_agree :
    (∀ (w : String) (k : Token.Kind),
      (Keyword.ofText? w).map Token.Kind.keyword = some k ↔
        k.isKeyword ∧ (lex w).reports = [] ∧
          ∃ t last, (lex w).tokens = [t, last] ∧ t.kind = k ∧ t.lexeme = w ∧
            last.kind = .endOfFile) ∧
    (∀ source, ∀ t ∈ (lex source).tokens,
      (t.kind.isKeyword ↔ (Keyword.ofText? t.lexeme).map Token.Kind.keyword = some t.kind) ∧
        (t.kind = .identifier ↔
          Grammar.Word t.lexeme.toList ∧ Keyword.ofText? t.lexeme = none)) ∧
    ∀ w : String, Grammar.Word w.toList →
      ∃ k : Token.Kind, (k.isKeyword ∨ k = .identifier) ∧
        lex w = ⟨[⟨k, w, none, .start⟩, .endOfFile (Position.start.after w.toList)], []⟩ := by
  have hkeyword {source : String} {t : Token} (ht : t ∈ (lex source).tokens) :
      t.kind.isKeyword ↔ (Keyword.ofText? t.lexeme).map Token.Kind.keyword = some t.kind := by
    rw [Token.Kind.map_keyword_eq_some_iff]
    exact ⟨fun h ↦ ⟨h, (word_of_isWord ht (.inl h)).2⟩, And.left⟩
  refine ⟨fun w k ↦ ⟨fun h ↦ ?_, fun h ↦ ?_⟩, fun source t ht ↦ ⟨hkeyword ht, ?_⟩,
    fun w hw ↦ ⟨.ofWord w, Token.Kind.isWord_ofWord w, lex_of_word hw⟩⟩
  · obtain ⟨e, he, -⟩ := Option.map_eq_some_iff.1 h
    obtain rfl := Keyword.ofText?_eq_some_iff.1 he
    obtain ⟨hk, rfl⟩ := Token.Kind.map_keyword_eq_some_iff.1 h
    rw [lex_of_word e.word_text]
    exact ⟨hk, rfl, _, _, rfl, rfl, rfl, rfl⟩
  · obtain ⟨hk, -, t, last, htokens, rfl, rfl, -⟩ := h
    have ht : t ∈ (lex t.lexeme).tokens := htokens ▸ List.mem_cons_self
    exact (hkeyword ht).1 hk
  · constructor
    · intro h
      obtain ⟨hword, hkind⟩ := word_of_isWord ht (.inr h)
      exact ⟨hword, Token.Kind.ofWord_eq_identifier_iff.1 (hkind.symm.trans h)⟩
    · intro ⟨hword, hnone⟩
      exact (kind_eq_ofWord ht hword).trans (Token.Kind.ofWord_eq_identifier_iff.2 hnone)

/-- Reserved words are written in small letters, on their own and outside strings and comments. -/
example : (lex "if If _if if2 \"if\" // if").tokens.map Token.kind =
    [.keyword .kwIf, .identifier, .identifier, .identifier, .string, .endOfFile] := by
  decide +kernel

end LoxLexer
