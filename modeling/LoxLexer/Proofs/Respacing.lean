import LoxLexer.Proofs.Contents

/-!
# Respacing the tokens of a source

Whatever a source holds between its tokens, problems included, its tokens can be written down again
with other blanks and comments between them, and are read as the same tokens. Between two tokens
must stand a blank: every token stops at a blank (`Piece.stopsAt_of_isBlank`), whichever it is and
wherever it comes from, but not every token stops at a comment, since a slash in front of one is
read as part of it. Behind the blank anything is free that is passed over in silence and ends with a
line feed where it has to.
-/

namespace LoxLexer

/-! ### Blanks and comments -/

/-- Blanks and comments. Every comment is closed by a line feed. -/
inductive Trivia : List Char → Prop
  | nil : Trivia []
  | blank {c : Char} {rest : List Char} (hc : isBlank c) (h : Trivia rest) : Trivia (c :: rest)
  | comment {body rest : List Char} (hbody : '\n' ∉ body) (h : Trivia rest) :
      Trivia ('/' :: '/' :: (body ++ '\n' :: rest))

/-- What can stand between any two tokens: a blank, and then blanks and comments. -/
def Separator (s : List Char) : Prop := ∃ c rest, isBlank c ∧ Trivia rest ∧ s = c :: rest

/-- Some words in order, with a separator between any two of them. -/
inductive Spaced : List String → List Char → Prop
  | nil : Spaced [] []
  | single (w : String) : Spaced [w] w.toList
  | cons {v w : String} {ws : List String} {sep text : List Char} (hsep : Separator sep)
      (h : Spaced (w :: ws) text) : Spaced (v :: w :: ws) (v.toList ++ (sep ++ text))

variable {rest sep text trail : List Char} {xs : List Piece}

/-- Trivia may stand in front of a text. -/
theorem ReadsAs.trivia {s : List Char} (h : ReadsAs rest xs) (hs : Trivia s) :
    ReadsAs (s ++ rest) xs := by
  induction hs with
  | nil => exact h
  | blank hc _ ih => exact ih.blank hc
  | comment hbody _ ih => simpa using ih.comment hbody

/-- So may a separator. -/
theorem ReadsAs.separator (h : ReadsAs rest xs) (hsep : Separator sep) :
    ReadsAs (sep ++ rest) xs := by
  obtain ⟨c, tail, hc, htail, rfl⟩ := hsep
  exact (h.trivia htail).blank hc

/-! ### Tokens in front of a blank -/

/-- A token stops at a blank and at the end. -/
theorem Piece.stopsAt_of_isBlank {x : Piece} (hx : x.isToken) (h : ∀ c ∈ rest.head?, isBlank c) :
    x.StopsAt rest := by
  have hword : ∀ c ∈ rest.head?, ¬ isWordPart c := fun c hc ↦ not_isWordPart_of_isBlank (h c hc)
  have hne {d : Char} (hd : ¬ isBlank d) : rest.head? ≠ some d := fun hhead ↦ hd (h d hhead)
  cases x with
  | string _ => trivial
  | number text =>
    refine ⟨fun c hc hdigit ↦ hword c hc (isWordPart_of_isDigit hdigit), ?_⟩
    rintro - more rfl
    exact absurd rfl (hne (by decide))
  | word text => exact hword
  | operator o => exact ⟨fun _ ↦ hne (by decide), fun _ ↦ hne (by decide)⟩
  | _ => exact absurd hx (by simp [isToken])

theorem Separator.head?_append (h : Separator sep) (rest : List Char) :
    ∀ c ∈ (sep ++ rest).head?, isBlank c := by
  obtain ⟨c, tail, hc, -, rfl⟩ := h
  rintro d ⟨⟩
  exact hc

/-- **Spaced tokens** are read as they are, by induction on the spacing. -/
theorem readsAs_of_spaced {ws : List String} (h : Spaced ws text) (hws : ws = xs.map Piece.lexeme)
    (hxs : ∀ x ∈ xs, x.IsSound ∧ x.isToken) (htrail : trail = [] ∨ Separator trail) :
    ReadsAs (text ++ trail) xs := by
  have hend : ReadsAs trail [] := by
    rcases htrail with rfl | htrail
    · exact .nil
    · simpa using ReadsAs.nil.separator htrail
  induction h generalizing xs with
  | nil =>
    rw [List.map_eq_nil_iff.1 hws.symm]
    exact hend
  | single w =>
    obtain ⟨x, rfl, rfl⟩ := List.map_eq_singleton_iff.1 hws.symm
    obtain ⟨hx, htoken⟩ := hxs x List.mem_cons_self
    have hblank : ∀ c ∈ trail.head?, isBlank c := by
      rcases htrail with rfl | htrail
      · simp
      · simpa using htrail.head?_append []
    rw [Piece.toList_lexeme]
    exact hend.token hx (Piece.stopsAt_of_isBlank htoken hblank) htoken
  | @cons v w ws sep text hsep _ ih =>
    obtain ⟨x, ys, rfl, rfl, hys⟩ := List.map_eq_cons_iff.1 hws.symm
    obtain ⟨⟨hx, htoken⟩, hrest⟩ := List.forall_mem_cons.1 hxs
    rw [Piece.toList_lexeme, List.append_assoc, List.append_assoc]
    exact ((ih hys.symm hrest).separator hsep).token hx
      (Piece.stopsAt_of_isBlank htoken (hsep.head?_append _)) htoken

/-! ### Respaced sources -/

/-- **The tokens of any source can be spaced anew.** Its lexemes, problems between them left out,
with a separator between any two of them, trivia in front and a separator or nothing behind, make
no report and give tokens of the same kinds, lexemes and literals. -/
theorem lex_respaced {source lead text trail : String} (hlead : Trivia lead.toList)
    (htext : Spaced (lex source).lexemes text.toList)
    (htrail : trail = "" ∨ Separator trail.toList) :
    (lex (lead ++ text ++ trail)).reports = [] ∧
      (lex (lead ++ text ++ trail)).tokens.map Token.content =
        (lex source).tokens.map Token.content := by
  have hxs : ∀ x ∈ (Piece.cut source.toList).filter Piece.isToken, x.IsSound ∧ x.isToken := by
    intro x hx
    obtain ⟨hmem, htoken⟩ := List.mem_filter.1 hx
    exact ⟨Piece.isSound_of_mem_cut hmem, htoken⟩
  have hreads := readsAs_of_spaced htext (lexemes_lex source) hxs
    (htrail.imp_left fun h ↦ by rw [h, String.toList_empty])
  have hall : ReadsAs (lead ++ text ++ trail).toList
      ((Piece.cut source.toList).filter Piece.isToken) := by
    rw [String.toList_append, String.toList_append, List.append_assoc]
    exact hreads.trivia hlead
  refine ⟨hall.reports_lex, ?_⟩
  rw [hall.contents_lex, contents_lex, Piece.filterMap_content?_filter]

/-- A source with a stray character and an open string, spaced with comments. -/
theorem lex_respaced_with_comments :
    (Trivia "//a\n".toList ∧ Spaced (lex "if@x<1.\"s").lexemes "if\tx //b\n< 1\n.".toList ∧
      Separator " ".toList) ∧
    (lex ("//a\n" ++ "if\tx //b\n< 1\n." ++ " ")).reports = [] ∧
      (lex ("//a\n" ++ "if\tx //b\n< 1\n." ++ " ")).tokens.map Token.content =
        (lex "if@x<1.\"s").tokens.map Token.content := by
  have hlead : Trivia "//a\n".toList := @Trivia.comment ['a'] [] (by decide) .nil
  have hsep (c : Char) (hc : isBlank c) : Separator [c] := ⟨c, [], hc, .nil, rfl⟩
  have hcomment : Separator [' ', '/', '/', 'b', '\n'] :=
    ⟨' ', _, rfl, @Trivia.comment ['b'] [] (by decide) .nil, rfl⟩
  have htext : Spaced (lex "if@x<1.\"s").lexemes "if\tx //b\n< 1\n.".toList := by
    have hlexemes : (lex "if@x<1.\"s").lexemes = ["if", "x", "<", "1", "."] := by decide +kernel
    rw [hlexemes]
    exact .cons (hsep '\t' rfl) <| .cons hcomment <| .cons (hsep ' ' rfl) <|
      .cons (hsep '\n' rfl) <| .single "."
  have htrail : Separator " ".toList := hsep ' ' rfl
  exact ⟨⟨hlead, htext, htrail⟩, lex_respaced hlead htext (.inr htrail)⟩

end LoxLexer
