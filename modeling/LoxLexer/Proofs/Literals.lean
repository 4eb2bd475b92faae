import LoxLexer.Proofs.Frontiers
import LoxLexer.Proofs.Words

/-!
# Literals and quotes

A literal is what a string or a number stands for, and no other token has one. One look at each kind
of piece shows this (`literal_cases`). For strings it is also the whole of their syntax: between the
quotes stands the literal itself, whatever its characters are, as long as none of them is a quote.
So writing a text between quotes and reading it back are inverse to each other. In one direction
this is a fact about every string token. In the other it holds for every text without quotes, and
whatever follows, since the second quote ends the string: nothing behind it is looked at, and
nothing before it counts for anything but itself (`read_quoted`).
-/

namespace LoxLexer

/-! ### Quoting -/

/-- A text between quotes. -/
def quoted (s : String) : String := "\"" ++ s ++ "\""

theorem toList_quoted (s : String) : (quoted s).toList = (Piece.string s.toList).chars := by
  show ("\"" ++ s ++ "\"").toList = '"' :: (s.toList ++ ['"'])
  rw [String.toList_append, String.toList_append]
  rfl

theorem lexeme_string (s : String) : String.ofList (Piece.string s.toList).chars = quoted s := by
  rw [← toList_quoted, String.ofList_toList]

/-- What a string amounts to, wherever it stands. -/
theorem PlacedPiece.event?_string (s : String) (p : Position) : event? ⟨.string s.toList, p⟩ =
    some (.token ⟨.string, quoted s, some (.string s), p⟩) := by
  show some (Event.token ⟨.string, String.ofList (Piece.string s.toList).chars,
    some (.string (String.ofList s.toList)), p⟩) = _
  rw [lexeme_string, String.ofList_toList]

theorem PlacedPiece.token?_string (s : String) (p : Position) :
    token? ⟨.string s.toList, p⟩ = some ⟨.string, quoted s, some (.string s), p⟩ := by
  rw [token?, event?_string]
  rfl

/-! ### The literals of tokens -/

theorem Token.Kind.IsWord.not_isLiteral {k : Kind} (h : k.IsWord) : ¬ k.isLiteral := by
  match k, h with
  | .keyword _, _ => exact Bool.false_ne_true
  | .identifier, _ => exact Bool.false_ne_true

/-- What literals there are: a string's is its lexeme without the quotes, a number has a double, and
all other tokens have none. -/
theorem literal_cases {source : String} {t : Token} (ht : t ∈ (lex source).tokens) :
    (t.kind = .string ∧ ∃ s, t.literal = some (.string s) ∧ '"' ∉ s.toList ∧ t.lexeme = quoted s) ∨
      (t.kind = .number ∧ ∃ x, t.literal = some (.number x)) ∨
      (¬ t.kind.isLiteral ∧ t.literal = none) := by
  rcases mem_tokens_lex ht with ⟨⟨x, p⟩, hx, hxt⟩ | rfl
  · have hsound : x.IsSound := Piece.isSound_of_mem_cut (piece_mem_cut hx)
    match x with
    | .string body =>
      obtain ⟨s, rfl⟩ : ∃ s : String, body = s.toList :=
        ⟨String.ofList body, String.toList_ofList.symm⟩
      obtain rfl := Option.some.inj ((PlacedPiece.token?_string s p).symm.trans hxt)
      exact .inl ⟨rfl, s, rfl, hsound, rfl⟩
    | .number text =>
      obtain ⟨v, hv⟩ := PlacedPiece.token?_number hsound
      obtain rfl := Option.some.inj ((hv p).symm.trans hxt)
      exact .inr (.inl ⟨rfl, v, rfl⟩)
    | .word text =>
      obtain rfl := Option.some.inj hxt
      exact .inr (.inr ⟨(Token.Kind.isWord_ofWord _).not_isLiteral, rfl⟩)
    | .operator o =>
      obtain rfl := Option.some.inj hxt
      exact .inr (.inr ⟨Bool.false_ne_true, rfl⟩)
  · exact .inr (.inr ⟨Bool.false_ne_true, rfl⟩)

/-! ### Reading a quoted text -/

/-- **A quoted text is read as it stands**, up to the second quote and no further. -/
theorem read_quoted {s : String} (h : '"' ∉ s.toList) (rest : List Char) :
    Piece.read '"' (s.toList ++ '"' :: rest) = (.string s.toList, rest) :=
  Piece.read_of_isSound (x := .string s.toList) h trivial (by
    rw [Piece.chars, List.cons_append, List.append_assoc]
    rfl)

/-- A cursor in front of a quoted text pulls the string first, without any report. -/
theorem next_quoted {s : String} (h : '"' ∉ s.toList) (rest : String) :
    ∃ d, (Cursor.ofSource (quoted s ++ rest)).next =
      ⟨some ⟨.string, quoted s, some (.string s), .start⟩, [], [], d⟩ := by
  have hrest : (Cursor.ofSource (quoted s ++ rest)).rest =
      '"' :: (s.toList ++ '"' :: rest.toList) := by
    show (quoted s ++ rest).toList = _
    rw [String.toList_append, toList_quoted, Piece.chars, List.cons_append, List.append_assoc]
    rfl
  obtain ⟨reported, hpass⟩ := Cursor.pass?_of_cons hrest
  rw [read_quoted h, PlacedPiece.event?_string] at hpass
  exact ⟨_, Cursor.next_of_token hpass⟩

/-! ### Quoting and reading back -/

/-- **Literals and quotes.** In any source exactly the string and number tokens have a literal, and
the lexeme of a string is its literal between quotes, which has none itself. Conversely any text
without quotes, set between quotes in front of anything, is the first token, with the text as its
literal, and nothing is reported on the way to it. -/
theorem literals_and_quotes :
    (∀ source, ∀ t ∈ (lex source).tokens,
      (t.literal.isSome ↔ t.kind.isLiteral) ∧
        (t.kind = .string → ∃ s, t.literal = some (.string s) ∧ '"' ∉ s.toList ∧
          t.lexeme = "\"" ++ s ++ "\"") ∧
        (t.kind = .number → ∃ x, t.literal = some (.number x))) ∧
    ∀ s rest : String, '"' ∉ s.toList →
      let source := "\"" ++ s ++ "\"" ++ rest
      let first : Token := ⟨.string, "\"" ++ s ++ "\"", some (.string s), ⟨1, 1, 0⟩⟩
      (lex source).tokens.head? = some first ∧
        (Cursor.ofSource source).next.value = some first ∧
        (Cursor.ofSource source).next.reports = [] := by
  refine ⟨fun source t ht ↦ ?_, fun s rest h ↦ ?_⟩
  · rcases literal_cases ht with ⟨hkind, s, hliteral, hquote, hlexeme⟩ | ⟨hkind, x, hliteral⟩ |
      ⟨hkind, hliteral⟩
    · rw [hkind, hliteral]
      exact ⟨iff_of_true rfl rfl, fun _ ↦ ⟨s, rfl, hquote, hlexeme⟩, Token.Kind.noConfusion⟩
    · rw [hkind, hliteral]
      exact ⟨iff_of_true rfl rfl, Token.Kind.noConfusion, fun _ ↦ ⟨x, rfl⟩⟩
    · rw [hliteral]
      refine ⟨iff_of_false Bool.false_ne_true hkind, fun h ↦ ?_, fun h ↦ ?_⟩
      · exact absurd rfl (h ▸ hkind)
      · exact absurd rfl (h ▸ hkind)
  · obtain ⟨d, hnext⟩ := next_quoted h rest
    have hhead := (next_reaches (standsAt_ofSource (quoted s ++ rest))).1
    rw [List.drop_zero, hnext] at hhead
    show (lex (quoted s ++ rest)).tokens.head? = _ ∧
      (Cursor.ofSource (quoted s ++ rest)).next.value = _ ∧
      (Cursor.ofSource (quoted s ++ rest)).next.reports = []
    rw [hnext]
    exact ⟨hhead.symm, rfl, rfl⟩

end LoxLexer
