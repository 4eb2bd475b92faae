import LoxLexer.Proofs.Contents
import Mathlib.Data.List.Flatten
import Mathlib.Data.List.Infix

/-!
# Lexemes side by side

Which lexemes can be written down one after the other without anything in between? All but those
that clash with the next or, for a number, with the next two (`Clash`, `Clashing`). That is an exact
condition on the list of lexemes (`yields_join_iff`), and it is local because borders are: a token
stops at the text of those behind it, of which it sees one or two characters, and these belong to
the first one or two of them.

* A character tells what kind of token it can begin (`Piece.number_of_head` and so on). So if a
  token does not stop at the text of those behind it, these are tokens that it clashes with
  (`stopsAt_flatMap`).
* If it clashes with them it does not stop at their text, so that the text is not cut there
  (`not_clashing_of_chained`). And a text with these lexemes could not be cut elsewhere: they leave
  no room for other pieces (`cut_of_lexemes_join`).
-/

namespace LoxLexer

/-! ### Clashing lexemes -/

/-- Two lexemes that are not read as such if they stand side by side. -/
inductive Clash : String → String → Prop
  /-- A word goes on with letters and digits. -/
  | word {a b : String} (ha : Grammar.Word a.toList)
      (hb : Grammar.Word b.toList ∨ Grammar.Number b.toList) : Clash a b
  | number {a b : String} (ha : Grammar.Number a.toList) (hb : Grammar.Number b.toList) : Clash a b
  /-- Four operators take an equals sign. -/
  | equals {a b : String} (ha : a ∈ ["!", "=", "<", ">"]) (hb : b ∈ ["=", "=="]) : Clash a b
  /-- Two slashes begin a comment. -/
  | slashes : Clash "/" "/"

/-- Somewhere in the list are two lexemes side by side that clash, or three that are one number: a
number without a fraction, a point and a number. -/
def Clashing (ws : List String) : Prop :=
  (∃ a b, [a, b] <:+: ws ∧ Clash a b) ∨
    ∃ a b, [a, ".", b] <:+: ws ∧ Grammar.Digits a.toList ∧ Grammar.Number b.toList

/-- The source makes no report and its lexemes are `ws`. -/
def Yields (source : String) (ws : List String) : Prop :=
  (lex source).reports = [] ∧ (lex source).lexemes = ws

/-- The source is a single token from end to end. -/
def IsTokenText (w : String) : Prop := Yields w [w]

instance (source : String) (ws : List String) : Decidable (Yields source ws) :=
  inferInstanceAs (Decidable (_ ∧ _))

instance (w : String) : Decidable (IsTokenText w) := inferInstanceAs (Decidable (Yields w [w]))

/-! ### The first character of a token -/

namespace Operator

variable {o : Operator} {tail : List Char}

theorem eq_dot_of_chars (h : o.chars = '.' :: tail) : o = dot := by
  cases o <;> first | rfl | cases h

theorem eq_equal_of_chars (h : o.chars = '=' :: tail) : o = equal ∨ o = equalEqual := by
  cases o <;> first | exact .inl rfl | exact .inr rfl | cases h

end Operator

namespace Piece

variable {x : Piece} {c : Char} {tail : List Char}

/-- A piece that begins with a digit is a number. -/
theorem number_of_head (hx : x.IsSound) (h : x.chars = c :: tail) (hc : c.isDigit) :
    Grammar.Number x.chars := by
  have hread := read_of_isSound hx (stopsAt_nil x) ((List.append_nil _).trans h)
  rw [read_of_isDigit hc] at hread
  obtain ⟨rfl, -⟩ := Prod.mk.inj hread
  exact hx

/-- A piece that begins with a character of words is a word or a number. -/
theorem word_or_number_of_head (hx : x.IsSound) (h : x.chars = c :: tail) (hc : isWordPart c) :
    Grammar.Word x.chars ∨ Grammar.Number x.chars := by
  rw [isWordPart, decide_eq_true_eq] at hc
  rcases hc with hc | hc
  · have hread := read_of_isSound hx (stopsAt_nil x) ((List.append_nil _).trans h)
    rw [read_of_isWordStart hc] at hread
    obtain ⟨rfl, -⟩ := Prod.mk.inj hread
    exact .inl hx
  · exact .inr (number_of_head hx h hc)

/-- A token that begins otherwise, and with no quote, is an operator. -/
theorem operator_of_head (hx : x.IsSound) (htoken : x.isToken) (h : x.chars = c :: tail)
    (hquote : c ≠ '"') (hc : ¬ isWordPart c) : ∃ o, x = operator o := by
  cases x with
  | string _ => exact absurd (List.cons.inj h).1.symm hquote
  | number text =>
    obtain ⟨d, rest, rfl, hd⟩ := Grammar.Number.exists_cons hx
    obtain ⟨rfl, -⟩ := List.cons.inj h
    exact absurd (isWordPart_of_isDigit (Grammar.isDigit_iff.2 hd)) hc
  | word text =>
    obtain ⟨d, rest, rfl, hd, -⟩ := hx
    obtain ⟨rfl, -⟩ := List.cons.inj h
    exact absurd (isWordPart_of_isWordStart (Grammar.isWordStart_iff.2 hd)) hc
  | operator o => exact ⟨o, rfl⟩
  | _ => exact absurd htoken (by simp [isToken])

variable {xs : List Piece}

/-- The first character of some tokens is that of the first of them. -/
theorem exists_of_head? (hxs : ∀ x ∈ xs, x.IsSound ∧ x.isToken)
    (h : (xs.flatMap chars).head? = some c) :
    ∃ y ys rest, xs = y :: ys ∧ y.chars = c :: rest ∧ y.IsSound ∧ y.isToken := by
  cases xs with
  | nil => simp at h
  | cons y ys =>
    obtain ⟨hy, htoken⟩ := hxs y List.mem_cons_self
    obtain ⟨d, rest, hd⟩ := List.exists_cons_of_ne_nil hy.chars_ne_nil
    rw [List.flatMap_cons, hd, List.cons_append, List.head?_cons, Option.some.injEq] at h
    exact ⟨y, ys, rest, rfl, h ▸ hd, hy, htoken⟩

/-- Tokens in a row that begin in such a way begin with an operator. -/
theorem exists_operator_of_head? (hxs : ∀ x ∈ xs, x.IsSound ∧ x.isToken)
    (h : (xs.flatMap chars).head? = some c) (hquote : c ≠ '"') (hc : ¬ isWordPart c) :
    ∃ o ys rest, xs = operator o :: ys ∧ o.chars = c :: rest := by
  obtain ⟨y, ys, rest, rfl, hchars, hy, htoken⟩ := exists_of_head? hxs h
  obtain ⟨o, rfl⟩ := operator_of_head hy htoken hchars hquote hc
  exact ⟨o, ys, rest, rfl, hchars⟩

end Piece

/-! ### Lexemes that do not clash -/

theorem clashing_of_clash {a b : String} {ws : List String} (h : Clash a b) :
    Clashing (a :: b :: ws) :=
  .inl ⟨a, b, (List.prefix_append [a, b] ws).isInfix, h⟩

theorem clashing_of_point {a b : String} {ws : List String} (ha : Grammar.Digits a.toList)
    (hb : Grammar.Number b.toList) : Clashing (a :: "." :: b :: ws) :=
  .inr ⟨a, b, (List.prefix_append [a, ".", b] ws).isInfix, ha, hb⟩

/-- A clash is one wherever it comes. -/
theorem Clashing.cons {ws : List String} (h : Clashing ws) (w : String) : Clashing (w :: ws) := by
  have hcons := (List.suffix_cons w ws).isInfix
  rcases h with ⟨a, b, hab, hclash⟩ | ⟨a, b, hab, ha, hb⟩
  · exact .inl ⟨a, b, hab.trans hcons, hclash⟩
  · exact .inr ⟨a, b, hab.trans hcons, ha, hb⟩

/-- A number without a point is a run of digits. -/
theorem digits_of_number {text : List Char} (h : Grammar.Number text) (hpoint : '.' ∉ text) :
    Grammar.Digits text := by
  rcases h with h | ⟨whole, fraction, -, -, rfl⟩
  · exact h
  · exact absurd (List.mem_append_right _ List.mem_cons_self) hpoint

/-- The operators that take an equals sign. -/
theorem Operator.mem_of_withEqual? {o : Operator} (h : o.withEqual?.isSome) :
    (Piece.operator o).lexeme ∈ ["!", "=", "<", ">"] := by
  cases o <;> first | decide | cases h

section Stops

variable {xs : List Piece} (hxs : ∀ x ∈ xs, x.IsSound ∧ x.isToken)
include hxs

/-- A number stops at the tokens behind it unless there is a clash. -/
theorem stopsAt_of_number {text : List Char} (hnumber : Grammar.Number text)
    (h : ¬ Clashing ((.number text :: xs).map Piece.lexeme)) :
    (Piece.number text).StopsAt (xs.flatMap Piece.chars) := by
  refine ⟨fun c hc hdigit ↦ ?_, fun hpoint more hmore c hc hdigit ↦ ?_⟩
  · obtain ⟨y, ys, rest, rfl, hchars, hy, -⟩ := Piece.exists_of_head? hxs hc
    have hnext := Piece.number_of_head hy hchars hdigit
    rw [← Piece.toList_lexeme] at hnext
    exact h (clashing_of_clash (.number (by rwa [Piece.toList_lexeme]) hnext))
  · -- the point is a token, and the digit behind it begins another
    obtain ⟨o, ys, rest, rfl, hdot⟩ :=
      Piece.exists_operator_of_head? hxs (by rw [hmore]; rfl) (by decide) (by decide)
    obtain rfl := Operator.eq_dot_of_chars hdot
    obtain rfl : ys.flatMap Piece.chars = more := (List.cons.inj hmore).2
    obtain ⟨z, zs, rest', rfl, hchars, hz, -⟩ :=
      Piece.exists_of_head? (List.forall_mem_cons.1 hxs).2 hc
    have hnext := Piece.number_of_head hz hchars hdigit
    have hdigits := digits_of_number hnumber hpoint
    exact h (clashing_of_point (by rwa [Piece.toList_lexeme]) (by rwa [Piece.toList_lexeme]))

/-- A word stops at the tokens behind it unless there is a clash. -/
theorem stopsAt_of_word {text : List Char} (hword : Grammar.Word text)
    (h : ¬ Clashing ((.word text :: xs).map Piece.lexeme)) :
    (Piece.word text).StopsAt (xs.flatMap Piece.chars) := by
  intro c hc hpart
  obtain ⟨y, ys, rest, rfl, hchars, hy, -⟩ := Piece.exists_of_head? hxs hc
  have hnext := Piece.word_or_number_of_head hy hchars hpart
  exact h (clashing_of_clash (.word (by rwa [Piece.toList_lexeme]) (by rwa [Piece.toList_lexeme])))

/-- An operator stops at the tokens behind it unless there is a clash. -/
theorem stopsAt_of_operator {o : Operator}
    (h : ¬ Clashing ((.operator o :: xs).map Piece.lexeme)) :
    (Piece.operator o).StopsAt (xs.flatMap Piece.chars) := by
  refine ⟨fun hequal hc ↦ ?_, fun hslash hc ↦ ?_⟩
  · obtain ⟨e, ys, rest, rfl, he⟩ :=
      Piece.exists_operator_of_head? hxs hc (by decide) (by decide)
    have hnext : (Piece.operator e).lexeme ∈ ["=", "=="] := by
      rcases Operator.eq_equal_of_chars he with rfl | rfl <;> decide
    exact h (clashing_of_clash (.equals (Operator.mem_of_withEqual? hequal) hnext))
  · obtain ⟨e, ys, rest, rfl, he⟩ :=
      Piece.exists_operator_of_head? hxs hc (by decide) (by decide)
    obtain rfl := Operator.eq_slash_of_chars he
    subst hslash
    exact h (clashing_of_clash .slashes)

/-- **A token stops** at the text of those behind it if they do not clash. -/
theorem stopsAt_flatMap {x : Piece} (hx : x.IsSound) (htoken : x.isToken)
    (h : ¬ Clashing ((x :: xs).map Piece.lexeme)) : x.StopsAt (xs.flatMap Piece.chars) := by
  cases x with
  | string _ => trivial
  | number text => exact stopsAt_of_number hxs hx h
  | word text => exact stopsAt_of_word hxs hx h
  | operator o => exact stopsAt_of_operator hxs h
  | _ => exact absurd htoken (by simp [Piece.isToken])

end Stops

/-- Tokens in a row without a clash form a chain. -/
theorem chained_of_not_clashing {xs : List Piece} (hxs : ∀ x ∈ xs, x.IsSound ∧ x.isToken)
    (h : ¬ Clashing (xs.map Piece.lexeme)) : Piece.Chained xs := by
  induction xs with
  | nil => trivial
  | cons x xs ih =>
    obtain ⟨⟨hx, htoken⟩, hrest⟩ := List.forall_mem_cons.1 hxs
    exact ⟨hx, stopsAt_flatMap hrest hx htoken h, ih hrest fun hclash ↦ h (hclash.cons _)⟩

/-! ### Lexemes that clash -/

theorem Operator.withEqual?_of_mem {a : String} (h : a ∈ ["!", "=", "<", ">"]) :
    ∃ o : Operator, o.withEqual?.isSome ∧ a.toList = o.chars := by
  simp only [List.mem_cons, List.not_mem_nil, or_false] at h
  rcases h with rfl | rfl | rfl | rfl
  · exact ⟨bang, rfl, rfl⟩
  · exact ⟨equal, rfl, rfl⟩
  · exact ⟨less, rfl, rfl⟩
  · exact ⟨greater, rfl, rfl⟩

/-- A piece does not stop at a text that begins with a lexeme it clashes with. -/
theorem not_clash_of_stopsAt {x y : Piece} {rest : List Char} (hx : x.IsSound)
    (hstop : x.StopsAt (y.chars ++ rest)) : ¬ Clash x.lexeme y.lexeme := by
  intro h
  have hchars := x.toList_lexeme
  have hy := y.toList_lexeme
  generalize x.lexeme = a at h hchars
  generalize y.lexeme = b at h hy
  cases h with
  | word ha hb =>
    obtain ⟨text, rfl⟩ : ∃ text, x = .word text := ⟨x.chars, hx.eq_of_chars (hchars ▸ ha) rfl⟩
    have hpart : ∃ c tail, y.chars = c :: tail ∧ isWordPart c := by
      rw [hy] at hb
      rcases hb with ⟨c, tail, htail, hc, -⟩ | hb
      · exact ⟨c, tail, htail, Grammar.isWordPart_iff.2 (.inl hc)⟩
      · obtain ⟨c, tail, htail, hc⟩ := hb.exists_cons
        exact ⟨c, tail, htail, Grammar.isWordPart_iff.2 (.inr hc)⟩
    obtain ⟨c, tail, htail, hc⟩ := hpart
    exact hstop c (by rw [htail]; rfl) hc
  | number ha hb =>
    obtain ⟨text, rfl⟩ : ∃ text, x = .number text := ⟨x.chars, hx.eq_of_chars (hchars ▸ ha) rfl⟩
    rw [hy] at hb
    obtain ⟨c, tail, htail, hc⟩ := hb.exists_cons
    exact hstop.1 c (by rw [htail]; rfl) (Grammar.isDigit_iff.2 hc)
  | equals ha hb =>
    obtain ⟨o, ho, hao⟩ := Operator.withEqual?_of_mem ha
    obtain rfl : x = .operator o := hx.eq_of_chars trivial (hchars.symm.trans hao)
    have hequal : ∃ tail, y.chars = '=' :: tail := by
      simp only [List.mem_cons, List.not_mem_nil, or_false] at hb
      rcases hb with rfl | rfl
      · exact ⟨[], hy.symm⟩
      · exact ⟨['='], hy.symm⟩
    obtain ⟨tail, htail⟩ := hequal
    exact hstop.1 ho (by rw [htail]; rfl)
  | slashes =>
    obtain rfl : x = .operator .slash := hx.eq_of_chars trivial hchars.symm
    exact hstop.2 rfl (by rw [← hy]; rfl)

/-- Nor a number without a fraction at a point and a number. -/
theorem not_stopsAt_point {x z : Piece} {rest : List Char} (hx : x.IsSound)
    (hdigits : Grammar.Digits x.chars) (hz : Grammar.Number z.chars) :
    ¬ x.StopsAt ('.' :: (z.chars ++ rest)) := by
  obtain ⟨text, rfl⟩ : ∃ text, x = .number text := ⟨x.chars, hx.eq_of_chars (.inl hdigits) rfl⟩
  intro hstop
  obtain ⟨c, tail, htail, hc⟩ := hz.exists_cons
  exact hstop.2 hdigits.point_not_mem _ rfl c (by rw [htail]; rfl) (Grammar.isDigit_iff.2 hc)

/-- Lexemes in a row inside a chain come from a chain of their own. -/
theorem Piece.Chained.of_infix {xs : List Piece} {ws : List String} (h : Chained xs)
    (hws : ws <:+: xs.map lexeme) : ∃ ys after, ws = ys.map lexeme ∧ Chained (ys ++ after) := by
  obtain ⟨ys, ⟨before, after, rfl⟩, rfl⟩ := List.infix_map_iff.1 hws
  rw [List.append_assoc] at h
  exact ⟨ys, after, rfl, h.of_append⟩

/-- **Where pieces are chained** no lexemes clash. -/
theorem not_clashing_of_chained {xs : List Piece} (h : Piece.Chained xs) :
    ¬ Clashing (xs.map Piece.lexeme) := by
  rintro (⟨a, b, hab, hclash⟩ | ⟨a, b, hab, ha, hb⟩)
  · obtain ⟨ys, after, hys, hchained⟩ := h.of_infix hab
    obtain ⟨x, ys, rfl, rfl, hy⟩ := List.map_eq_cons_iff.1 hys.symm
    obtain ⟨y, ys, rfl, rfl, -⟩ := List.map_eq_cons_iff.1 hy
    obtain ⟨hx, hstop, -⟩ := hchained
    exact not_clash_of_stopsAt hx hstop hclash
  · obtain ⟨ys, after, hys, hchained⟩ := h.of_infix hab
    obtain ⟨x, ys, rfl, rfl, hy⟩ := List.map_eq_cons_iff.1 hys.symm
    obtain ⟨y, ys, rfl, hpoint, hz⟩ := List.map_eq_cons_iff.1 hy
    obtain ⟨z, ys, rfl, rfl, -⟩ := List.map_eq_cons_iff.1 hz
    obtain ⟨hx, hstop, -⟩ := hchained
    have hychars : y.chars = ['.'] := by
      rw [← y.toList_lexeme, hpoint]
      rfl
    have hpoint' : x.StopsAt (y.chars ++ (z.chars ++ (ys ++ after).flatMap Piece.chars)) := hstop
    rw [Piece.toList_lexeme] at ha hb
    rw [hychars] at hpoint'
    exact not_stopsAt_point hx ha hb hpoint'

/-! ### Texts without gaps -/

/-- Pieces that have the characters of all of them leave no room for others. -/
theorem of_flatMap_chars_filter {p : Piece → Bool} {xs : List Piece}
    (hne : ∀ x ∈ xs, x.chars ≠ [])
    (h : (xs.filter p).flatMap Piece.chars = xs.flatMap Piece.chars) : xs.filter p = xs := by
  induction xs with
  | nil => rfl
  | cons x xs ih =>
    obtain ⟨hx, hrest⟩ := List.forall_mem_cons.1 hne
    by_cases hp : p x
    · rw [List.filter_cons_of_pos hp, List.flatMap_cons, List.flatMap_cons] at h
      rw [List.filter_cons_of_pos hp, ih hrest (List.append_cancel_left h)]
    · rw [List.filter_cons_of_neg hp] at h
      have hsub : (xs.filter p).Sublist xs := List.filter_sublist
      have hle := (hsub.flatMap Piece.chars).length_le
      have hpos := List.length_pos_iff.2 hx
      rw [h, List.flatMap_cons, List.length_append] at hle
      omega

/-- If the lexemes of a source put together are the source, then all its pieces are tokens. -/
theorem cut_of_lexemes_join {source : String} (h : String.join (lex source).lexemes = source) :
    (Piece.cut source.toList).filter Piece.isToken = Piece.cut source.toList := by
  refine of_flatMap_chars_filter (fun x ↦ Piece.chars_ne_nil_of_mem_cut) ?_
  have hjoin := congrArg String.toList h
  rw [String.toList_join, lexemes_lex, List.flatMap_map] at hjoin
  simp only [Piece.toList_lexeme] at hjoin
  exact hjoin.trans (Piece.flatMap_chars_cut _).symm

/-! ### Side by side -/

/-- A token text is the text of a token. -/
theorem IsTokenText.exists_piece {w : String} (h : IsTokenText w) :
    ∃ x : Piece, x.IsSound ∧ x.isToken ∧ x.lexeme = w := by
  obtain ⟨x, hx, hlexeme⟩ := List.map_eq_singleton_iff.1 ((lexemes_lex w).symm.trans h.2)
  obtain ⟨hmem, htoken⟩ := List.mem_filter.1 (hx ▸ List.mem_singleton_self x)
  exact ⟨x, Piece.isSound_of_mem_cut hmem, htoken, hlexeme⟩

/-- Texts of tokens are those of sound pieces. -/
theorem exists_pieces {ws : List String} (h : ∀ w ∈ ws, IsTokenText w) :
    ∃ xs : List Piece, (∀ x ∈ xs, x.IsSound ∧ x.isToken) ∧ xs.map Piece.lexeme = ws := by
  induction ws with
  | nil => exact ⟨[], by simp, rfl⟩
  | cons w ws ih =>
    obtain ⟨hw, hrest⟩ := List.forall_mem_cons.1 h
    obtain ⟨x, hx, htoken, rfl⟩ := hw.exists_piece
    obtain ⟨xs, hxs, rfl⟩ := ih hrest
    exact ⟨x :: xs, List.forall_mem_cons.2 ⟨⟨hx, htoken⟩, hxs⟩, rfl⟩

theorem toList_join_map_lexeme (xs : List Piece) :
    (String.join (xs.map Piece.lexeme)).toList = xs.flatMap Piece.chars := by
  rw [String.toList_join, List.flatMap_map]
  simp only [Piece.toList_lexeme]

/-- The content of a token that is a source of its own. -/
theorem contents_lex_lexeme {x : Piece} (hx : x.IsSound) (htoken : x.isToken) :
    (lex x.lexeme).tokens.dropLast.map Token.content = x.content?.toList := by
  have hreads : ReadsAs x.lexeme.toList [x] := by
    rw [Piece.toList_lexeme, ← List.append_nil x.chars]
    exact ReadsAs.nil.token hx (Piece.stopsAt_nil x) htoken
  rw [List.map_dropLast, hreads.contents_lex, List.dropLast_concat,
    List.filterMap_eq_flatMap_toList, List.flatMap_singleton]

/-- **Which lexemes can stand side by side.** Token texts that are put together are read as just
these tokens, with no report, if and only if no two or three of them clash. Then each has the kind
and the literal that it has alone. -/
theorem yields_join_iff {ws : List String} (h : ∀ w ∈ ws, IsTokenText w) :
    (Yields (String.join ws) ws ↔ ¬ Clashing ws) ∧
      (¬ Clashing ws → (lex (String.join ws)).tokens.map Token.content =
        (ws.flatMap fun w ↦ (lex w).tokens.dropLast.map Token.content) ++ [.endOfFile]) := by
  obtain ⟨xs, hxs, rfl⟩ := exists_pieces h
  have hreads (hclash : ¬ Clashing (xs.map Piece.lexeme)) :
      ReadsAs (String.join (xs.map Piece.lexeme)).toList xs := by
    rw [toList_join_map_lexeme]
    exact .of_chained (chained_of_not_clashing hxs hclash) fun x hx ↦ (hxs x hx).2
  refine ⟨⟨fun ⟨_, hlexemes⟩ ↦ ?_, fun hclash ↦ ?_⟩, fun hclash ↦ ?_⟩
  · -- the pieces of the text have these lexemes, so these do not clash
    have hall := cut_of_lexemes_join (congrArg String.join hlexemes)
    rw [lexemes_lex, hall] at hlexemes
    rw [← hlexemes]
    exact not_clashing_of_chained (Piece.chained_cut _)
  · exact ⟨(hreads hclash).reports_lex, (hreads hclash).lexemes_lex⟩
  · rw [(hreads hclash).contents_lex, List.filterMap_eq_flatMap_toList, List.flatMap_map]
    refine congrArg (· ++ _) (List.flatMap_congr fun x hx ↦ ?_)
    exact (contents_lex_lexeme (hxs x hx).1 (hxs x hx).2).symm

/-- A point does not join two numbers if the first has a fraction; an equals sign is taken by an
operator in front of it, not behind. -/
theorem yields_join_points_and_equals :
    let ws := ["1.5", ".", "2", "if", "=", "\"x\"", "=", "!"]
    (∀ w ∈ ws, IsTokenText w) ∧
      (Yields (String.join ws) ws ↔ ¬ Clashing ws) ∧
        (¬ Clashing ws → (lex (String.join ws)).tokens.map Token.content =
          (ws.flatMap fun w ↦ (lex w).tokens.dropLast.map Token.content) ++ [.endOfFile]) :=
  ⟨by decide +kernel, yields_join_iff (by decide +kernel)⟩

end LoxLexer
