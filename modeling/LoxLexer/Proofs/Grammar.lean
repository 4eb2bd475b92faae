import LoxLexer.Lexed
import LoxLexer.Proofs.Runs

/-!
# The grammar of pieces

What a source consists of, said without the reader: seven rules, each of which takes a piece off the
head of a text or does not apply, and the order in which they are tried. Three of the rules take the
longest text of a language that the source begins with, where the languages are the usual ones of
numbers, words and operators.

## What rests on what

* A rule takes at most one piece off a text (`Rule.takes_*_iff`). For the three languages this is
  `IsLongestPrefix.unique`: of two prefixes of one length there is only one.
* The reader takes the piece of the first rule that applies (`isFirst_read`), so the grammar is
  deterministic and cutting is its only factorization (`factored_iff`).

The lookahead of the reader appears nowhere in the rules. That it suffices for the longest number is
`isLongestPrefix_span`, for the longest operator `isLongestPrefix_of_read?`.
-/

namespace LoxLexer

/-! ### Longest prefixes -/

/-- `t` is the longest text of the language `L` that `s` begins with. -/
def IsLongestPrefix (L : List Char → Prop) (s t : List Char) : Prop :=
  L t ∧ t <+: s ∧ ∀ u, L u → u <+: s → u.length ≤ t.length

/-- There is one longest prefix at most. -/
theorem IsLongestPrefix.unique {L : List Char → Prop} {s t u : List Char}
    (ht : IsLongestPrefix L s t) (hu : IsLongestPrefix L s u) : t = u := by
  have htu : t <+: u := List.prefix_of_prefix_length_le ht.2.1 hu.2.1 (hu.2.2 t ht.1 ht.2.1)
  exact htu.eq_of_length_le (ht.2.2 u hu.1 hu.2.1)

/-! ### The languages -/

namespace Grammar

def IsDigit (c : Char) : Prop := '0' ≤ c ∧ c ≤ '9'

def IsLetter (c : Char) : Prop := ('A' ≤ c ∧ c ≤ 'Z') ∨ ('a' ≤ c ∧ c ≤ 'z')

/-- A digit or more. -/
def Digits (t : List Char) : Prop := t ≠ [] ∧ ∀ c ∈ t, IsDigit c

/-- Digits, or digits on both sides of a point. -/
def Number (t : List Char) : Prop :=
  Digits t ∨ ∃ whole fraction, Digits whole ∧ Digits fraction ∧ t = whole ++ '.' :: fraction

/-- A letter or an underscore, and then letters, underscores and digits. -/
def Word (t : List Char) : Prop :=
  ∃ c rest, t = c :: rest ∧ (IsLetter c ∨ c = '_') ∧
    ∀ d ∈ rest, (IsLetter d ∨ d = '_') ∨ IsDigit d

/-- The spelling of an operator. -/
def Spelling (t : List Char) : Prop := ∃ o : Operator, o.chars = t

theorem isDigit_iff {c : Char} : c.isDigit ↔ IsDigit c := by
  show (decide ('0' ≤ c) && decide (c ≤ '9')) = true ↔ _
  rw [Bool.and_eq_true, decide_eq_true_eq, decide_eq_true_eq]
  rfl

theorem isAlpha_iff {c : Char} : c.isAlpha ↔ IsLetter c := by
  show (c.isUpper || c.isLower) = true ↔ _
  rw [Bool.or_eq_true]
  refine or_congr ?_ ?_
  · show decide ('A' ≤ c ∧ c ≤ 'Z') = true ↔ _
    rw [decide_eq_true_eq]
  · show (decide ('a' ≤ c) && decide (c ≤ 'z')) = true ↔ _
    rw [Bool.and_eq_true, decide_eq_true_eq, decide_eq_true_eq]

/-- The reader and the grammar agree on how words begin. -/
theorem isWordStart_iff {c : Char} : isWordStart c ↔ IsLetter c ∨ c = '_' := by
  simp only [isWordStart, decide_eq_true_eq, isAlpha_iff]

/-- The reader and the grammar agree on how words go on. -/
theorem isWordPart_iff {c : Char} : isWordPart c ↔ (IsLetter c ∨ c = '_') ∨ IsDigit c := by
  simp only [isWordPart, decide_eq_true_eq, isWordStart_iff, isDigit_iff]

theorem Digits.isDigit {t : List Char} (h : Digits t) : ∀ c ∈ t, c.isDigit :=
  fun c hc ↦ isDigit_iff.2 (h.2 c hc)

/-- There is no point in a run of digits. -/
theorem Digits.point_not_mem {t : List Char} (h : Digits t) : '.' ∉ t :=
  fun hmem ↦ absurd (h.isDigit _ hmem) (by decide)

/-- A run of digits begins with one. -/
theorem Digits.exists_cons {t : List Char} (h : Digits t) :
    ∃ d rest, t = d :: rest ∧ IsDigit d := by
  obtain ⟨d, rest, rfl⟩ := List.exists_cons_of_ne_nil h.1
  exact ⟨d, rest, rfl, h.2 d List.mem_cons_self⟩

/-- Both forms of a number begin with a digit. -/
theorem Number.exists_cons {t : List Char} (h : Number t) :
    ∃ d rest, t = d :: rest ∧ IsDigit d := by
  rcases h with h | ⟨whole, fraction, hwhole, -, rfl⟩
  · exact h.exists_cons
  · obtain ⟨d, rest, rfl, hd⟩ := hwhole.exists_cons
    exact ⟨d, rest ++ '.' :: fraction, rfl, hd⟩

end Grammar

/-! ### The rules -/

/-- The rules of the grammar. -/
inductive Rule
  | blank | comment | quote | number | word | operator | stray
  deriving DecidableEq

namespace Rule

/-- When a rule is tried: those of lower order come first. -/
def order : Rule → Nat
  | blank => 0
  | comment => 1
  | quote => 2
  | number => 3
  | word => 4
  | operator => 5
  | stray => 6

/-- A rule takes a piece off the head of a text. -/
inductive Takes : Rule → List Char → Piece → Prop
  | blank {c : Char} {rest : List Char} (h : c = ' ' ∨ c = '\t' ∨ c = '\r' ∨ c = '\n') :
      Takes blank (c :: rest) (.blank c)
  /-- A comment reaches up to a line feed or to the end. -/
  | comment {body rest : List Char} (h : '\n' ∉ body) (hrest : ∀ c ∈ rest.head?, c = '\n') :
      Takes comment ('/' :: '/' :: (body ++ rest)) (.comment body)
  | string {body rest : List Char} (h : '"' ∉ body) :
      Takes quote ('"' :: (body ++ '"' :: rest)) (.string body)
  | openString {body : List Char} (h : '"' ∉ body) : Takes quote ('"' :: body) (.openString body)
  | number {s t : List Char} (h : IsLongestPrefix Grammar.Number s t) : Takes number s (.number t)
  | word {s t : List Char} (h : IsLongestPrefix Grammar.Word s t) : Takes word s (.word t)
  | operator {s : List Char} {o : Operator} (h : IsLongestPrefix Grammar.Spelling s o.chars) :
      Takes operator s (.operator o)
  | stray {c : Char} {rest : List Char} : Takes stray (c :: rest) (.stray c)

end Rule

/-- No rule that is tried before `r` applies to `s`. -/
def Rule.Reaches (r : Rule) (s : List Char) : Prop :=
  ∀ q : Rule, q.order < r.order → ∀ y, ¬ q.Takes s y

/-- The first rule that applies to `s` takes the piece `x` off it. -/
def IsFirst (s : List Char) (x : Piece) : Prop := ∃ r : Rule, r.Reaches s ∧ r.Takes s x

/-- A text in its pieces: each is taken off what is left by the first rule that applies to it. -/
inductive Factored : List Char → List Piece → Prop
  | nil : Factored [] []
  | cons {x : Piece} {rest : List Char} {xs : List Piece} (hx : IsFirst (x.chars ++ rest) x)
      (hxs : Factored rest xs) : Factored (x.chars ++ rest) (x :: xs)

/-! ### What each rule takes -/

namespace Operator

/-- The list of operators is searched by their characters without a mistake. -/
theorem find?_chars (o : Operator) : (all.find? fun e ↦ e.chars = o.chars) = some o := by
  cases o <;> rfl

/-- Operators are told apart by their characters. -/
theorem chars_injective {o e : Operator} (h : o.chars = e.chars) : o = e := by
  have ho := find?_chars o
  rw [h, find?_chars e] at ho
  exact (Option.some.inj ho).symm

/-- An operator is found for a character exactly if it is written so. -/
theorem ofChar?_eq_some_iff {c : Char} {o : Operator} : ofChar? c = some o ↔ o.chars = [c] := by
  refine ⟨chars_of_ofChar?, fun h ↦ ?_⟩
  rw [ofChar?, ← h]
  exact find?_chars o

/-- An operator is found for another one exactly if it is that one with an equals sign behind. -/
theorem withEqual?_eq_some_iff {o e : Operator} :
    o.withEqual? = some e ↔ e.chars = o.chars ++ ['='] := by
  refine ⟨chars_of_withEqual?, fun h ↦ ?_⟩
  rw [withEqual?, ← h]
  exact find?_chars e

/-- An operator is one character, or another operator and an equals sign. -/
theorem chars_eq (e : Operator) :
    ∃ (o : Operator) (c : Char), o.chars = [c] ∧ (e = o ∨ e.chars = [c, '=']) := by
  cases e with
  | bangEqual => exact ⟨bang, '!', rfl, .inr rfl⟩
  | equalEqual => exact ⟨equal, '=', rfl, .inr rfl⟩
  | greaterEqual => exact ⟨greater, '>', rfl, .inr rfl⟩
  | lessEqual => exact ⟨less, '<', rfl, .inr rfl⟩
  | _ => exact ⟨_, _, rfl, .inl rfl⟩

/-- What the spelling of an operator begins with is read as some operator. -/
theorem exists_read?_of_prefix {c : Char} {rest : List Char} {e : Operator}
    (h : e.chars <+: c :: rest) : ∃ o after, read? c rest = some (o, after) := by
  obtain ⟨o, d, ho, he⟩ := e.chars_eq
  have hd : d = c := by
    obtain ⟨after, hafter⟩ := h
    rcases he with rfl | he
    · rw [ho] at hafter
      exact (List.cons.inj hafter).1
    · rw [he] at hafter
      exact (List.cons.inj hafter).1
  subst hd
  rw [read?, ofChar?_eq_some_iff.2 ho, Option.map_some]
  exact ⟨_, _, rfl⟩

/-- **One character of lookahead suffices** for the longest operator. -/
theorem isLongestPrefix_of_read? {c : Char} {rest after : List Char} {o : Operator}
    (h : read? c rest = some (o, after)) :
    IsLongestPrefix Grammar.Spelling (c :: rest) o.chars := by
  refine ⟨⟨o, rfl⟩, ⟨after, chars_append_of_read? h⟩, ?_⟩
  rintro _ ⟨e, rfl⟩ hpre
  obtain ⟨first, hfirst, hread⟩ := Option.map_eq_some_iff.1 h
  have hc := chars_of_ofChar? hfirst
  have ho : 1 ≤ o.chars.length := List.length_pos_iff.2 o.chars_ne_nil
  obtain ⟨e₁, d, he₁, rfl | he⟩ := e.chars_eq
  · simpa [he₁] using ho
  -- `e` is two characters long, so the equals sign was there to be read
  obtain ⟨more, hmore⟩ := hpre
  rw [he] at hmore
  obtain ⟨rfl, rfl⟩ := List.cons.inj hmore
  have hwith : first.withEqual? = some e := by rw [withEqual?_eq_some_iff, he, hc]; rfl
  rw [hwith] at hread
  obtain ⟨rfl, -⟩ := Prod.mk.inj hread
  exact le_rfl

end Operator

namespace Numeral

/-- A run of digits in front of a point is taken as a whole. -/
theorem takeWhile_isDigit_append_point {whole : List Char} (rest : List Char)
    (h : Grammar.Digits whole) :
    (whole ++ '.' :: rest).takeWhile Char.isDigit = whole ∧
      (whole ++ '.' :: rest).dropWhile Char.isDigit = '.' :: rest := by
  have hrest : ∀ c ∈ ('.' :: rest).head?, ¬ c.isDigit := by simp
  exact ⟨takeWhile_append_of_stop h.isDigit hrest, dropWhile_append_of_stop h.isDigit hrest⟩

/-- The run at the head of a text is a run of digits unless it is empty. -/
theorem digits_takeWhile {s : List Char} (h : s.takeWhile Char.isDigit ≠ []) :
    Grammar.Digits (s.takeWhile Char.isDigit) :=
  ⟨h, fun _ hc ↦ Grammar.isDigit_iff.1 (List.mem_takeWhile_imp hc)⟩

/-- A point with a digit behind it belongs to the number in front of it. -/
theorem span_of_point {s more : List Char} (hrest : s.dropWhile Char.isDigit = '.' :: more)
    (hmore : more.takeWhile Char.isDigit ≠ []) : span s =
      (s.takeWhile Char.isDigit ++ '.' :: more.takeWhile Char.isDigit,
        more.dropWhile Char.isDigit) := by
  have hpoint : (s.dropWhile Char.isDigit).head? = some '.' ∧
      (s.dropWhile Char.isDigit).tail.takeWhile Char.isDigit ≠ [] := by
    rw [hrest]
    exact ⟨rfl, hmore⟩
  refine (if_pos hpoint).trans ?_
  rw [hrest, List.tail_cons]

/-- Without such a point a number is its first run of digits. -/
theorem span_of_no_point {s : List Char} (h : ∀ more, s.dropWhile Char.isDigit = '.' :: more →
    more.takeWhile Char.isDigit = []) :
    span s = (s.takeWhile Char.isDigit, s.dropWhile Char.isDigit) := by
  refine if_neg ?_
  rintro ⟨hhead, htake⟩
  obtain ⟨more, hmore⟩ := List.head?_eq_some_iff.1 hhead
  rw [hmore] at htake
  exact htake (h more hmore)

/-- A number ends behind the digits of a fraction, or it has none and ends behind its first
digits. -/
theorem span_cases (s : List Char) :
    (∃ more, s.dropWhile Char.isDigit = '.' :: more ∧ more.takeWhile Char.isDigit ≠ [] ∧
      span s = (s.takeWhile Char.isDigit ++ '.' :: more.takeWhile Char.isDigit,
        more.dropWhile Char.isDigit)) ∨
    ((∀ more, s.dropWhile Char.isDigit = '.' :: more → more.takeWhile Char.isDigit = []) ∧
      span s = (s.takeWhile Char.isDigit, s.dropWhile Char.isDigit)) := by
  by_cases h : ∃ more, s.dropWhile Char.isDigit = '.' :: more ∧ more.takeWhile Char.isDigit ≠ []
  · obtain ⟨more, hrest, hmore⟩ := h
    exact .inl ⟨more, hrest, hmore, span_of_point hrest hmore⟩
  · have hnone : ∀ more, s.dropWhile Char.isDigit = '.' :: more →
        more.takeWhile Char.isDigit = [] := by
      intro more hrest
      by_contra hmore
      exact h ⟨more, hrest, hmore⟩
    exact .inr ⟨hnone, span_of_no_point hnone⟩

/-- What is split off behind a digit is a number. -/
theorem number_span {c : Char} {rest : List Char} (hc : c.isDigit) :
    Grammar.Number (span (c :: rest)).1 := by
  have hwhole : (c :: rest).takeWhile Char.isDigit ≠ [] := by simp [hc]
  rcases span_cases (c :: rest) with ⟨more, -, hmore, hspan⟩ | ⟨-, hspan⟩
  · rw [hspan]
    exact .inr ⟨_, _, digits_takeWhile hwhole, digits_takeWhile hmore, rfl⟩
  · rw [hspan]
    exact .inl (digits_takeWhile hwhole)

/-- **Two characters of lookahead suffice** for the longest number: a point is taken if and only if
a digit follows it. -/
theorem isLongestPrefix_span {c : Char} {rest : List Char} (hc : c.isDigit) :
    IsLongestPrefix Grammar.Number (c :: rest) (span (c :: rest)).1 := by
  refine ⟨number_span hc, ⟨_, span_append _⟩, ?_⟩
  intro u hu hpre
  rcases hu with hu | ⟨whole, fraction, hwhole, hfraction, rfl⟩
  · -- digits alone lie in the first run, which is taken in any case
    have hrun : u <+: (c :: rest).takeWhile Char.isDigit := prefix_takeWhile hpre hu.isDigit
    refine hrun.length_le.trans ?_
    rcases span_cases (c :: rest) with ⟨more, -, -, hspan⟩ | ⟨-, hspan⟩
    · rw [hspan, List.length_append]
      exact Nat.le_add_right _ _
    · rw [hspan]
  · -- with a point the first runs agree, and the second one is a run behind the same point
    obtain ⟨after, hafter⟩ := hpre
    rw [← hafter, List.append_assoc, List.cons_append]
    obtain ⟨htake, hdrop⟩ := takeWhile_isDigit_append_point (fraction ++ after) hwhole
    have hrun : fraction <+: (fraction ++ after).takeWhile Char.isDigit :=
      prefix_takeWhile (List.prefix_append _ _) hfraction.isDigit
    have hne : (fraction ++ after).takeWhile Char.isDigit ≠ [] := fun hnil ↦
      hfraction.1 (List.prefix_nil.1 (hnil ▸ hrun))
    rw [span_of_point hdrop hne, htake, List.length_append, List.length_append]
    exact Nat.add_le_add_left (Nat.succ_le_succ hrun.length_le) _

/-- Every number of the grammar can be read as a numeral. -/
theorem exists_ofChars?_of_number {t : List Char} (h : Grammar.Number t) :
    ∃ n, ofChars? t = some n := by
  rcases h with h | ⟨whole, fraction, hwhole, hfraction, rfl⟩
  · refine ⟨⟨t, []⟩, ofChars?_eq_some_iff.2 ⟨⟨h.1, h.isDigit, by simp⟩, rfl⟩⟩
  · refine ⟨⟨whole, fraction⟩, ofChars?_eq_some_iff.2
      ⟨⟨hwhole.1, hwhole.isDigit, hfraction.isDigit⟩, ?_⟩⟩
    rw [chars, if_neg hfraction.1]

end Numeral

namespace Piece

/-- A string ends at the first quote. -/
theorem readString_string {body : List Char} (h : '"' ∉ body) (rest : List Char) :
    readString (body ++ '"' :: rest) = (string body, rest) := by
  have hquote : ∀ d ∈ ('"' :: rest).head?, d = '"' := by simp
  rw [readString, dropWhile_ne_append h hquote, takeWhile_ne_append h hquote]

/-- Without another quote the rest of the text is an open string. -/
theorem readString_openString {body : List Char} (h : '"' ∉ body) :
    readString body = (openString body, []) := by
  have hdrop : (body ++ []).dropWhile (· ≠ '"') = [] := dropWhile_ne_append h (by simp)
  rw [List.append_nil] at hdrop
  rw [readString, hdrop]

/-- A string ends at the first quote, or it is open and takes all there is. -/
theorem readString_cases (s : List Char) :
    ('"' ∉ s ∧ readString s = (openString s, [])) ∨
      ∃ body rest, s = body ++ '"' :: rest ∧ '"' ∉ body ∧ readString s = (string body, rest) := by
  by_cases h : '"' ∈ s
  · obtain ⟨body, rest, rfl, hbody⟩ := List.eq_append_cons_of_mem h
    exact .inr ⟨body, rest, rfl, hbody, readString_string hbody rest⟩
  · exact .inl ⟨h, readString_openString h⟩

end Piece

/-- The run of word characters at the head of a text is its longest word. -/
theorem isLongestPrefix_word {c : Char} {rest : List Char} (hc : isWordStart c) :
    IsLongestPrefix Grammar.Word (c :: rest) (c :: rest.takeWhile isWordPart) := by
  refine ⟨⟨c, _, rfl, Grammar.isWordStart_iff.1 hc, fun d hd ↦
    Grammar.isWordPart_iff.1 (List.mem_takeWhile_imp hd)⟩, ?_, ?_⟩
  · exact (List.prefix_cons_inj c).2 (List.takeWhile_prefix _)
  · rintro _ ⟨d, more, rfl, -, hmore⟩ hpre
    obtain ⟨rfl, hrest⟩ := List.cons_prefix_cons.1 hpre
    have hrun := prefix_takeWhile hrest fun e he ↦ Grammar.isWordPart_iff.2 (hmore e he)
    exact Nat.succ_le_succ hrun.length_le

/-! ### The first rule that applies -/

namespace Rule

variable {c : Char} {rest : List Char} {x : Piece}

theorem takes_blank_iff : blank.Takes (c :: rest) x ↔ isBlank c ∧ x = .blank c := by
  rw [isBlank, decide_eq_true_eq]
  constructor
  · rintro ⟨h⟩
    exact ⟨h, rfl⟩
  · rintro ⟨h, rfl⟩
    exact .blank h

/-- The rule for comments applies behind two slashes, and takes what is in front of the line
feed. -/
theorem takes_comment_iff : comment.Takes (c :: rest) x ↔
    (c = '/' ∧ rest.head? = some '/') ∧ x = .comment (rest.tail.takeWhile (· ≠ '\n')) := by
  constructor
  · intro h
    cases h with
    | comment hbody hafter =>
      exact ⟨⟨rfl, rfl⟩, congrArg Piece.comment (takeWhile_ne_append hbody hafter).symm⟩
  · rintro ⟨⟨rfl, hslash⟩, rfl⟩
    obtain ⟨text, rfl⟩ := List.head?_eq_some_iff.1 hslash
    have h : comment.Takes ('/' :: '/' :: (text.takeWhile (· ≠ '\n') ++ text.dropWhile (· ≠ '\n')))
        (.comment (text.takeWhile (· ≠ '\n'))) :=
      .comment (not_mem_takeWhile_ne _ _) eq_of_mem_head?_dropWhile_ne
    rwa [List.takeWhile_append_dropWhile] at h

/-- The rule for quotes takes a string up to the next quote, or else all that is left. -/
theorem takes_quote_iff : quote.Takes (c :: rest) x ↔ c = '"' ∧ x = (Piece.readString rest).1 := by
  constructor
  · intro h
    cases h with
    | string hbody => exact ⟨rfl, by rw [Piece.readString_string hbody]⟩
    | openString hbody => exact ⟨rfl, by rw [Piece.readString_openString hbody]⟩
  · rintro ⟨rfl, rfl⟩
    rcases Piece.readString_cases rest with ⟨hbody, hread⟩ | ⟨body, after, rfl, hbody, hread⟩
    · rw [hread]
      exact .openString hbody
    · rw [hread]
      exact .string hbody

/-- The rule for numbers applies to a digit, and takes the longest number. -/
theorem takes_number_iff : number.Takes (c :: rest) x ↔
    c.isDigit ∧ x = .number (Numeral.span (c :: rest)).1 := by
  constructor
  · intro h
    cases h with
    | @number _ t h =>
      have hc : c.isDigit := by
        obtain ⟨d, more, rfl, hd⟩ := h.1.exists_cons
        obtain ⟨rfl, -⟩ := List.cons_prefix_cons.1 h.2.1
        exact Grammar.isDigit_iff.2 hd
      exact ⟨hc, congrArg Piece.number (h.unique (Numeral.isLongestPrefix_span hc))⟩
  · rintro ⟨hc, rfl⟩
    exact .number (Numeral.isLongestPrefix_span hc)

/-- The rule for words applies to a letter or an underscore, and takes the longest word. -/
theorem takes_word_iff : word.Takes (c :: rest) x ↔
    isWordStart c ∧ x = .word (c :: rest.takeWhile isWordPart) := by
  constructor
  · intro h
    cases h with
    | @word _ t h =>
      have hc : isWordStart c := by
        obtain ⟨d, more, rfl, hd, -⟩ := h.1
        obtain ⟨rfl, -⟩ := List.cons_prefix_cons.1 h.2.1
        exact Grammar.isWordStart_iff.2 hd
      exact ⟨hc, congrArg Piece.word (h.unique (isLongestPrefix_word hc))⟩
  · rintro ⟨hc, rfl⟩
    exact .word (isLongestPrefix_word hc)

/-- The rule for operators takes the longest that there is. -/
theorem takes_operator_iff : operator.Takes (c :: rest) x ↔
    ∃ o after, Operator.read? c rest = some (o, after) ∧ x = .operator o := by
  constructor
  · intro h
    cases h with
    | @operator _ o h =>
      obtain ⟨e, after, hread⟩ := Operator.exists_read?_of_prefix h.2.1
      have he := h.unique (Operator.isLongestPrefix_of_read? hread)
      exact ⟨e, after, hread, congrArg Piece.operator (Operator.chars_injective he)⟩
  · rintro ⟨o, after, hread, rfl⟩
    exact .operator (Operator.isLongestPrefix_of_read? hread)

/-- The last rule takes any character. -/
theorem takes_stray_iff : stray.Takes (c :: rest) x ↔ x = .stray c := by
  constructor
  · rintro ⟨⟩
    rfl
  · rintro rfl
    exact .stray

end Rule

/-- No rule applies to an empty text. -/
theorem Rule.not_takes_nil {r : Rule} {x : Piece} : ¬ r.Takes [] x := by
  intro h
  cases h with
  | number h =>
    obtain rfl := List.prefix_nil.1 h.2.1
    rcases h.1 with hdigits | ⟨whole, fraction, -, -, hnil⟩
    · exact hdigits.1 rfl
    · simp at hnil
  | word h =>
    obtain rfl := List.prefix_nil.1 h.2.1
    obtain ⟨c, rest, hnil, -⟩ := h.1
    simp at hnil
  | @operator _ o h => exact o.chars_ne_nil (List.prefix_nil.1 h.2.1)

/-- A rule takes at most one piece off a text. -/
theorem Rule.Takes.unique {r : Rule} {s : List Char} {x y : Piece} (hx : r.Takes s x)
    (hy : r.Takes s y) : x = y := by
  cases s with
  | nil => exact absurd hx Rule.not_takes_nil
  | cons c rest =>
    cases r with
    | blank => exact (Rule.takes_blank_iff.1 hx).2.trans (Rule.takes_blank_iff.1 hy).2.symm
    | comment => exact (Rule.takes_comment_iff.1 hx).2.trans (Rule.takes_comment_iff.1 hy).2.symm
    | quote => exact (Rule.takes_quote_iff.1 hx).2.trans (Rule.takes_quote_iff.1 hy).2.symm
    | number => exact (Rule.takes_number_iff.1 hx).2.trans (Rule.takes_number_iff.1 hy).2.symm
    | word => exact (Rule.takes_word_iff.1 hx).2.trans (Rule.takes_word_iff.1 hy).2.symm
    | operator =>
      obtain ⟨o, after, ho, rfl⟩ := Rule.takes_operator_iff.1 hx
      obtain ⟨e, after', he, rfl⟩ := Rule.takes_operator_iff.1 hy
      rw [ho] at he
      cases he
      rfl
    | stray => exact (Rule.takes_stray_iff.1 hx).trans (Rule.takes_stray_iff.1 hy).symm

/-- No two rules have the same place in the order. -/
theorem Rule.order_injective {r q : Rule} (h : r.order = q.order) : r = q := by
  cases r <;> cases q <;> simp_all [Rule.order]

/-- At most one piece comes first in a text. -/
theorem IsFirst.unique {s : List Char} {x y : Piece} (hx : IsFirst s x) (hy : IsFirst s y) :
    x = y := by
  obtain ⟨r, hr, hx⟩ := hx
  obtain ⟨q, hq, hy⟩ := hy
  rcases Nat.lt_trichotomy r.order q.order with h | h | h
  · exact absurd hx (hq r h x)
  · obtain rfl := Rule.order_injective h
    exact hx.unique hy
  · exact absurd hy (hr q h y)

/-- Where a rule is tried and takes nothing, the next one is tried. -/
theorem Rule.Reaches.next {r q : Rule} {s : List Char} (hr : r.Reaches s)
    (hnone : ∀ y, ¬ r.Takes s y) (hq : q.order = r.order + 1) : q.Reaches s := by
  intro e he
  rcases Nat.lt_or_ge e.order r.order with h | h
  · exact hr e h
  · obtain rfl : e = r := Rule.order_injective (by omega)
    exact hnone

/-- One choice of the reader: a rule takes its piece if it applies, and otherwise the choice is left
to the next rule. -/
theorem Rule.Reaches.isFirst_ite {r q : Rule} {s : List Char} {P : Prop} [Decidable P]
    {a b : Piece × List Char} (hr : r.Reaches s) (hq : q.order = r.order + 1)
    (htakes : ∀ y, r.Takes s y ↔ P ∧ y = a.1) (hb : q.Reaches s → IsFirst s b.1) :
    IsFirst s (if P then a else b).1 := by
  by_cases h : P
  · rw [if_pos h]
    exact ⟨r, hr, (htakes a.1).2 ⟨h, rfl⟩⟩
  · rw [if_neg h]
    exact hb (hr.next (fun y hy ↦ h ((htakes y).1 hy).1) hq)

/-- **The reader takes the piece of the first rule that applies.** -/
theorem isFirst_read (c : Char) (rest : List Char) :
    IsFirst (c :: rest) (Piece.read c rest).1 := by
  have hblank : Rule.blank.Reaches (c :: rest) := fun q hq ↦ absurd hq (Nat.not_lt_zero _)
  -- one rule after the other, in the order of the grammar
  refine hblank.isFirst_ite (q := .comment) rfl (fun _ ↦ Rule.takes_blank_iff) fun hcomment ↦ ?_
  refine hcomment.isFirst_ite (q := .quote) rfl (fun _ ↦ Rule.takes_comment_iff) fun hquote ↦ ?_
  refine hquote.isFirst_ite (q := .number) rfl (fun _ ↦ Rule.takes_quote_iff) fun hnumber ↦ ?_
  refine hnumber.isFirst_ite (q := .word) rfl (fun _ ↦ Rule.takes_number_iff) fun hword ↦ ?_
  refine hword.isFirst_ite (q := .operator) rfl (fun _ ↦ Rule.takes_word_iff) fun hoperator ↦ ?_
  rcases h : Operator.read? c rest with - | ⟨o, after⟩
  · have hstray : Rule.stray.Reaches (c :: rest) := by
      refine hoperator.next (fun y hy ↦ ?_) rfl
      obtain ⟨o, after, hread, -⟩ := Rule.takes_operator_iff.1 hy
      exact absurd (h.symm.trans hread) (by simp)
    exact ⟨.stray, hstray, Rule.takes_stray_iff.2 rfl⟩
  · exact ⟨.operator, hoperator, Rule.takes_operator_iff.2 ⟨o, after, h, rfl⟩⟩

/-! ### The only factorization -/

/-- Cutting a text is one way to factor it. -/
theorem Piece.factored_cut (s : List Char) : Factored s (Piece.cut s) := by
  fun_induction Piece.cut s with
  | case1 => exact .nil
  | case2 c rest ih =>
    have h := Piece.chars_read_append c rest
    have hfirst := isFirst_read c rest
    rw [← h] at hfirst ⊢
    exact .cons hfirst ih

/-- **Cutting is the only factorization** of a text into first pieces. -/
theorem factored_iff {s : List Char} {xs : List Piece} : Factored s xs ↔ xs = Piece.cut s := by
  constructor
  · intro h
    induction h with
    | nil => rw [Piece.cut_nil]
    | @cons x rest xs hx _ ih =>
      cases hs : x.chars ++ rest with
      | nil =>
        obtain ⟨r, -, htakes⟩ := hx
        exact absurd (hs ▸ htakes) Rule.not_takes_nil
      | cons c text =>
        -- the first piece is the one that is read, and so is what it leaves
        obtain rfl : x = (Piece.read c text).1 := (hs ▸ hx).unique (isFirst_read c text)
        have hrest : rest = (Piece.read c text).2 := by
          rw [← Piece.chars_read_append c text] at hs
          exact List.append_cancel_left hs
        rw [Piece.cut_cons, ih, hrest]
  · rintro rfl
    exact Piece.factored_cut s

end LoxLexer
