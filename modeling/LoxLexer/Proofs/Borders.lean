import LoxLexer.Proofs.Grammar

/-!
# Borders between pieces

Which piece a text begins with can be told from the piece and from what follows it, without the
reader and without the rules in front of the one that applies. The piece is **sound**: its
characters are such as its kind has. And it **stops** at what follows: the next one or two
characters do not prolong it. These two are all there is to reading (`Piece.read_eq_iff`).

The first says nothing about the surroundings and the second nothing about the inside of the piece,
so a list of pieces is what its text is cut into exactly if the pieces are sound and each stops at
the text of those behind it (`Piece.cut_flatMap_iff`). A piece with nothing behind it stops in any
case, which is why sound pieces are told apart by their characters (`Piece.IsSound.eq_of_chars`).
-/

namespace LoxLexer

variable {c : Char} {rest more : List Char}

/-! ### Characters of different classes -/

theorem isWordPart_of_isWordStart (h : isWordStart c) : isWordPart c := by
  rw [isWordPart, decide_eq_true_eq]
  exact .inl h

theorem isWordPart_of_isDigit (h : c.isDigit) : isWordPart c := by
  rw [isWordPart, decide_eq_true_eq]
  exact .inr h

/-- No blank goes on a word. -/
theorem not_isWordPart_of_isBlank (h : isBlank c) : ¬ isWordPart c := by
  rw [isBlank, decide_eq_true_eq] at h
  rcases h with rfl | rfl | rfl | rfl <;> decide

/-- What begins a word is no digit, so words and numbers are told apart by their first character. -/
theorem not_isDigit_of_isWordStart (h : isWordStart c) : ¬ c.isDigit := by
  rw [Grammar.isWordStart_iff] at h
  rw [Grammar.isDigit_iff]
  rintro ⟨-, hnine⟩
  rcases h with (⟨hA, -⟩ | ⟨ha, -⟩) | rfl
  · exact absurd (Char.le_trans hA hnine) (by decide)
  · exact absurd (Char.le_trans ha hnine) (by decide)
  · exact absurd hnine (by decide)

/-- The first character of an operator begins nothing else but perhaps a comment. -/
theorem class_of_ofChar? {o : Operator} (h : Operator.ofChar? c = some o) :
    ¬ isBlank c ∧ c ≠ '"' ∧ ¬ c.isDigit ∧ ¬ isWordStart c := by
  have hc := Operator.chars_of_ofChar? h
  cases o <;> cases hc <;> decide

/-! ### Characters that are no blanks -/

theorem Grammar.Digits.not_isBlank {text : List Char} (h : Digits text) :
    ∀ c ∈ text, ¬ isBlank c := fun c hc hblank ↦
  not_isWordPart_of_isBlank hblank (isWordPart_of_isDigit (h.isDigit c hc))

/-- There are no blanks in a number. -/
theorem Grammar.Number.not_isBlank {text : List Char} (h : Number text) :
    ∀ c ∈ text, ¬ isBlank c := by
  rcases h with h | ⟨whole, fraction, hwhole, hfraction, rfl⟩
  · exact h.not_isBlank
  · exact List.forall_mem_append.2 ⟨hwhole.not_isBlank,
      List.forall_mem_cons.2 ⟨by decide, hfraction.not_isBlank⟩⟩

/-- There are no blanks in a word. -/
theorem Grammar.Word.not_isBlank {text : List Char} (h : Word text) : ∀ c ∈ text, ¬ isBlank c := by
  obtain ⟨c, rest, rfl, hc, hrest⟩ := h
  refine List.forall_mem_cons.2 ⟨fun hblank ↦ ?_, fun d hd hblank ↦ ?_⟩
  · exact not_isWordPart_of_isBlank hblank (isWordPart_of_isWordStart (isWordStart_iff.2 hc))
  · exact not_isWordPart_of_isBlank hblank (isWordPart_iff.2 (hrest d hd))

/-- There are no blanks in an operator. -/
theorem Operator.not_isBlank (o : Operator) : ∀ c ∈ o.chars, ¬ isBlank c := by
  have hall : o.chars.all fun c ↦ ¬ isBlank c := by cases o <;> decide
  simpa using hall

/-! ### Reading by the first character -/

namespace Piece

theorem read_of_isBlank (h : isBlank c) : read c rest = (blank c, rest) := if_pos h

/-- Two slashes begin a comment. -/
theorem read_slash_slash (rest : List Char) : read '/' ('/' :: rest) =
    (comment (rest.takeWhile (· ≠ '\n')), rest.dropWhile (· ≠ '\n')) := rfl

/-- A piece that begins with a quote is a string, closed or not. -/
theorem read_quote (rest : List Char) : read '"' rest = readString rest := rfl

/-- A piece that begins with a digit is a number. -/
theorem read_of_isDigit (h : c.isDigit) :
    read c rest = (number (Numeral.span (c :: rest)).1, (Numeral.span (c :: rest)).2) := by
  have hpart := isWordPart_of_isDigit h
  have hblank : ¬ isBlank c := fun hb ↦ not_isWordPart_of_isBlank hb hpart
  have hslash : c ≠ '/' := by rintro rfl; exact absurd h (by decide)
  have hquote : c ≠ '"' := by rintro rfl; exact absurd h (by decide)
  rw [read, if_neg hblank, if_neg (fun hc ↦ hslash hc.1), if_neg hquote, if_pos h]

/-- A piece that begins with a letter or an underscore is a word. -/
theorem read_of_isWordStart (h : isWordStart c) :
    read c rest = (word (c :: rest.takeWhile isWordPart), rest.dropWhile isWordPart) := by
  have hpart := isWordPart_of_isWordStart h
  have hblank : ¬ isBlank c := fun hb ↦ not_isWordPart_of_isBlank hb hpart
  have hslash : c ≠ '/' := by rintro rfl; exact absurd h (by decide)
  have hquote : c ≠ '"' := by rintro rfl; exact absurd h (by decide)
  rw [read, if_neg hblank, if_neg (fun hc ↦ hslash hc.1), if_neg hquote,
    if_neg (not_isDigit_of_isWordStart h), if_pos h]

/-- A piece that begins as an operator is one, unless it is a comment. -/
theorem read_of_read? {o : Operator} {after : List Char}
    (h : Operator.read? c rest = some (o, after)) (hslash : c = '/' → rest.head? ≠ some '/') :
    read c rest = (operator o, after) := by
  obtain ⟨first, hfirst, -⟩ := Option.map_eq_some_iff.1 h
  obtain ⟨hblank, hquote, hdigit, hword⟩ := class_of_ofChar? hfirst
  rw [read, if_neg hblank, if_neg (fun hc ↦ hslash hc.1 hc.2), if_neg hquote, if_neg hdigit,
    if_neg hword, h]

/-! ### Sound pieces -/

/-- The characters of the piece are such as its kind has. -/
def IsSound : Piece → Prop
  | blank c => isBlank c
  | comment body => '\n' ∉ body
  | string body | openString body => '"' ∉ body
  | number text => Grammar.Number text
  | word text => Grammar.Word text
  | operator _ => True
  | stray c => ¬ isBlank c ∧ c ≠ '"' ∧ ¬ c.isDigit ∧ ¬ isWordStart c ∧ Operator.ofChar? c = none

/-- What follows the piece does not prolong it. -/
def StopsAt : Piece → List Char → Prop
  | blank _, _ | string _, _ | stray _, _ => True
  | comment _, rest => ∀ c ∈ rest.head?, c = '\n'
  | openString _, rest => rest = []
  | number text, rest => (∀ c ∈ rest.head?, ¬ c.isDigit) ∧
      ('.' ∉ text → ∀ more, rest = '.' :: more → ∀ c ∈ more.head?, ¬ c.isDigit)
  | word _, rest => ∀ c ∈ rest.head?, ¬ isWordPart c
  | operator o, rest => (o.withEqual?.isSome → rest.head? ≠ some '=') ∧
      (o = .slash → rest.head? ≠ some '/')

/-- Every piece stops at the end of the source. -/
theorem stopsAt_nil (x : Piece) : x.StopsAt [] := by
  cases x <;> simp [StopsAt]

end Piece

/-- What a reader sees ahead, which is two characters at most, is in `t` what it is in `s`, or
blank. -/
structure LooksBlanked (s t : List Char) : Prop where
  eq_nil : s = [] → t = []
  head : ∀ d ∈ t.head?, d ∈ s.head? ∨ isBlank d
  /-- Behind a point the next character counts as well. -/
  point : ∀ more, t = '.' :: more →
    ∃ rest, s = '.' :: rest ∧ ∀ d ∈ more.head?, d ∈ rest.head? ∨ isBlank d

/-- **No blank prolongs a piece**, but for comments, which have blanks in them. -/
theorem Piece.StopsAt.of_looksBlanked {x : Piece} {s t : List Char} (h : x.StopsAt s)
    (ht : LooksBlanked s t) (hx : ∀ body, x ≠ .comment body) : x.StopsAt t := by
  have hhead {u v : List Char} {P : Char → Prop} (hv : ∀ d ∈ v.head?, d ∈ u.head? ∨ isBlank d)
      (hu : ∀ c ∈ u.head?, P c) (hblank : ∀ c, isBlank c → P c) : ∀ d ∈ v.head?, P d :=
    fun d hd ↦ (hv d hd).elim (hu d) (hblank d)
  have hdigit : ∀ c, isBlank c → ¬ c.isDigit := fun c hc hdigit ↦
    not_isWordPart_of_isBlank hc (isWordPart_of_isDigit hdigit)
  have hne {c : Char} (hc : s.head? ≠ some c) (hblank : ¬ isBlank c) : t.head? ≠ some c :=
    fun htc ↦ (ht.head c htc).elim hc hblank
  cases x with
  | comment body => exact absurd rfl (hx body)
  | blank _ => trivial
  | string _ => trivial
  | stray _ => trivial
  | openString _ => exact ht.eq_nil h
  | number text =>
    refine ⟨hhead ht.head h.1 hdigit, fun hpoint more hmore ↦ ?_⟩
    obtain ⟨rest, hrest, hahead⟩ := ht.point more hmore
    exact hhead hahead (h.2 hpoint rest hrest) hdigit
  | word _ => exact hhead ht.head h fun _ ↦ not_isWordPart_of_isBlank
  | operator o =>
    exact ⟨fun hequal ↦ hne (h.1 hequal) (by decide), fun hslash ↦ hne (h.2 hslash) (by decide)⟩

/-! ### The readers of strings, numbers and operators -/

/-- What is read behind a quote is sound, and stops where it was cut off. -/
theorem Piece.readString_sound (s : List Char) :
    (readString s).1.IsSound ∧ (readString s).1.StopsAt (readString s).2 := by
  rcases readString_cases s with ⟨h, hread⟩ | ⟨body, rest, -, h, hread⟩
  · rw [hread]
    exact ⟨h, rfl⟩
  · rw [hread]
    exact ⟨h, trivial⟩

namespace Numeral

/-- A number that was split off stops at what is left. -/
theorem span_stops (s : List Char) : (Piece.number (span s).1).StopsAt (span s).2 := by
  rcases span_cases s with ⟨more, -, -, hspan⟩ | ⟨hnone, hspan⟩
  · rw [hspan]
    exact ⟨not_of_mem_head?_dropWhile, fun hpoint ↦ absurd (by simp) hpoint⟩
  · rw [hspan]
    refine ⟨not_of_mem_head?_dropWhile, fun _ more hmore d hd hdigit ↦ ?_⟩
    -- a digit behind the point would have been taken
    obtain ⟨after, rfl⟩ := List.head?_eq_some_iff.1 (Option.mem_def.1 hd)
    have hnil := hnone _ hmore
    rw [List.takeWhile_cons_of_pos hdigit] at hnil
    exact List.cons_ne_nil _ _ hnil

/-- A number is split off whole in front of any text at which it stops. -/
theorem span_append_of_stops {text : List Char} (h : Grammar.Number text)
    (hstop : (Piece.number text).StopsAt rest) : span (text ++ rest) = (text, rest) := by
  obtain ⟨hrest, hpoint⟩ := hstop
  rcases h with h | ⟨whole, fraction, hwhole, hfraction, rfl⟩
  · have htake := takeWhile_append_of_stop h.isDigit hrest
    have hdrop := dropWhile_append_of_stop h.isDigit hrest
    rw [span_of_no_point, htake, hdrop]
    intro more hmore
    rw [hdrop] at hmore
    cases more with
    | nil => rfl
    | cons d after => exact List.takeWhile_cons_of_neg (hpoint h.point_not_mem _ hmore d rfl)
  · rw [List.append_assoc, List.cons_append]
    obtain ⟨htake, hdrop⟩ := takeWhile_isDigit_append_point (fraction ++ rest) hwhole
    have htake' := takeWhile_append_of_stop hfraction.isDigit hrest
    rw [span_of_point hdrop (htake'.symm ▸ hfraction.1), htake, htake',
      dropWhile_append_of_stop hfraction.isDigit hrest]

end Numeral

namespace Operator

/-- No operator has two equals signs behind another one. -/
theorem withEqual?_of_withEqual? {o e : Operator} (h : o.withEqual? = some e) :
    e.withEqual? = none := by
  cases o <;> cases h <;> rfl

/-- An operator is read if it is spelled out and no equals sign follows that it could take. -/
theorem read?_eq_some_iff {o : Operator} : read? c rest = some (o, more) ↔
    o.chars ++ more = c :: rest ∧ (o.withEqual?.isSome → more.head? ≠ some '=') := by
  constructor
  · intro h
    refine ⟨chars_append_of_read? h, ?_⟩
    obtain ⟨first, -, hread⟩ := Option.map_eq_some_iff.1 h
    split at hread
    · next he =>
      cases hread
      simp [withEqual?_of_withEqual? he]
    · next hno =>
      cases hread
      intro hsome hhead
      obtain ⟨e, he⟩ := Option.isSome_iff_exists.1 hsome
      obtain ⟨after, rfl⟩ := List.head?_eq_some_iff.1 hhead
      exact hno e after he rfl
  · rintro ⟨happend, hstop⟩
    obtain ⟨first, d, hfirst, rfl | ho⟩ := o.chars_eq
    · rw [hfirst] at happend
      obtain ⟨rfl, rfl⟩ : d = c ∧ more = rest := List.cons.inj happend
      rw [read?, ofChar?_eq_some_iff.2 hfirst, Option.map_some]
      split
      · next he => exact absurd rfl (hstop (by rw [he]; rfl))
      · rfl
    · rw [ho] at happend
      obtain ⟨rfl, rfl⟩ : d = c ∧ '=' :: more = rest := List.cons.inj happend
      have hwith : first.withEqual? = some o := by
        rw [withEqual?_eq_some_iff, ho, hfirst]
        rfl
      rw [read?, ofChar?_eq_some_iff.2 hfirst, Option.map_some, hwith]
      rfl

/-- No other operator begins with a slash. -/
theorem eq_slash_of_chars {o : Operator} {tail : List Char} (h : o.chars = '/' :: tail) :
    o = slash := by
  cases o <;> first | rfl | cases h

end Operator

/-! ### Reading -/

namespace Piece

/-- What is read is sound and stops. -/
theorem read_sound (c : Char) (rest : List Char) :
    (read c rest).1.IsSound ∧ (read c rest).1.StopsAt (read c rest).2 := by
  rw [read]
  split
  · next h => exact ⟨h, trivial⟩
  next hblank =>
  split
  · exact ⟨not_mem_takeWhile_ne _ _, eq_of_mem_head?_dropWhile_ne⟩
  next hcomment =>
  split
  · exact readString_sound rest
  next hquote =>
  split
  · next h => exact ⟨Numeral.number_span h, Numeral.span_stops (c :: rest)⟩
  next hdigit =>
  split
  · next h => exact ⟨(isLongestPrefix_word h).1, not_of_mem_head?_dropWhile⟩
  next hword =>
  split
  · next h =>
    obtain ⟨happend, hstop⟩ := Operator.read?_eq_some_iff.1 h
    refine ⟨trivial, hstop, ?_⟩
    rintro rfl hhead
    obtain ⟨rfl, rfl⟩ := List.cons.inj happend
    exact hcomment ⟨rfl, hhead⟩
  · next h => exact ⟨⟨hblank, hquote, hdigit, hword, Option.map_eq_none_iff.1 h⟩, trivial⟩

/-- A sound piece that stops is read. -/
theorem read_of_isSound {x : Piece} (hx : x.IsSound) (hstop : x.StopsAt rest)
    (h : x.chars ++ rest = c :: more) : read c more = (x, rest) := by
  cases x with
  | blank d =>
    obtain ⟨rfl, rfl⟩ : d = c ∧ rest = more := List.cons.inj h
    exact read_of_isBlank hx
  | comment body =>
    obtain ⟨rfl, rfl⟩ : '/' = c ∧ '/' :: (body ++ rest) = more := List.cons.inj h
    rw [read_slash_slash, takeWhile_ne_append hx hstop, dropWhile_ne_append hx hstop]
  | string body =>
    obtain ⟨rfl, rfl⟩ : '"' = c ∧ (body ++ ['"']) ++ rest = more := List.cons.inj h
    rw [read_quote, List.append_assoc]
    exact readString_string hx rest
  | openString body =>
    obtain rfl : rest = [] := hstop
    rw [List.append_nil] at h
    obtain ⟨rfl, rfl⟩ : '"' = c ∧ body = more := List.cons.inj h
    rw [read_quote]
    exact readString_openString hx
  | number text =>
    have hspan := Numeral.span_append_of_stops hx hstop
    obtain ⟨d, tail, rfl, hd⟩ := Grammar.Number.exists_cons hx
    obtain ⟨rfl, rfl⟩ : d = c ∧ tail ++ rest = more := List.cons.inj h
    rw [read_of_isDigit (Grammar.isDigit_iff.2 hd), ← List.cons_append, hspan]
  | word text =>
    obtain ⟨d, tail, rfl, hd, htail⟩ := hx
    obtain ⟨rfl, rfl⟩ : d = c ∧ tail ++ rest = more := List.cons.inj h
    have hrun : ∀ e ∈ tail, isWordPart e := fun e he ↦ Grammar.isWordPart_iff.2 (htail e he)
    rw [read_of_isWordStart (Grammar.isWordStart_iff.2 hd), takeWhile_append_of_stop hrun hstop,
      dropWhile_append_of_stop hrun hstop]
  | operator o =>
    refine read_of_read? (Operator.read?_eq_some_iff.2 ⟨h, hstop.1⟩) ?_
    rintro rfl hhead
    have ho : o = .slash := by
      obtain ⟨d, tail, ho⟩ := List.exists_cons_of_ne_nil o.chars_ne_nil
      rw [chars, ho] at h
      obtain ⟨rfl, -⟩ := List.cons.inj h
      exact Operator.eq_slash_of_chars ho
    subst ho
    obtain ⟨-, rfl⟩ : '/' = '/' ∧ rest = more := List.cons.inj h
    exact hstop.2 rfl hhead
  | stray d =>
    obtain ⟨rfl, rfl⟩ : d = c ∧ rest = more := List.cons.inj h
    obtain ⟨hblank, hquote, hdigit, hword, hnone⟩ := hx
    have hread : Operator.read? d rest = none := by rw [Operator.read?, hnone, Option.map_none]
    have hslash : d ≠ '/' := by
      rintro rfl
      exact absurd hnone (by decide)
    rw [read, if_neg hblank, if_neg (fun hc ↦ hslash hc.1), if_neg hquote, if_neg hdigit,
      if_neg hword, hread]

/-- **Reading** takes a sound piece off a text, and stops where the piece does. -/
theorem read_eq_iff {x : Piece} : read c more = (x, rest) ↔
    x.chars ++ rest = c :: more ∧ x.IsSound ∧ x.StopsAt rest := by
  constructor
  · intro h
    have hchars := chars_read_append c more
    have hsound := read_sound c more
    rw [h] at hchars hsound
    exact ⟨hchars, hsound⟩
  · rintro ⟨h, hx, hstop⟩
    exact read_of_isSound hx hstop h

/-! ### Cutting -/

/-- No sound piece is empty. -/
theorem IsSound.chars_ne_nil {x : Piece} (h : x.IsSound) : x.chars ≠ [] := by
  cases x with
  | number text =>
    obtain ⟨d, rest, rfl, -⟩ := Grammar.Number.exists_cons h
    exact List.cons_ne_nil d rest
  | word text =>
    obtain ⟨d, rest, rfl, -⟩ := h
    exact List.cons_ne_nil d rest
  | operator o => exact o.chars_ne_nil
  | _ => exact List.cons_ne_nil _ _

/-- A sound piece that stops is cut off. -/
theorem cut_append {x : Piece} (hx : x.IsSound) (hstop : x.StopsAt rest) :
    cut (x.chars ++ rest) = x :: cut rest := by
  have hne : x.chars ++ rest ≠ [] := fun h ↦ hx.chars_ne_nil (List.append_eq_nil_iff.1 h).1
  obtain ⟨c, more, h⟩ := List.exists_cons_of_ne_nil hne
  rw [h, cut_cons, read_of_isSound hx hstop h]

/-- Every piece is sound and stops at the text of those behind it. -/
def Chained : List Piece → Prop
  | [] => True
  | x :: xs => x.IsSound ∧ x.StopsAt (xs.flatMap chars) ∧ Chained xs

/-- The end of a chain is a chain. -/
theorem Chained.of_append {xs ys : List Piece} (h : Chained (xs ++ ys)) : Chained ys := by
  induction xs with
  | nil => exact h
  | cons x xs ih => exact ih h.2.2

/-- A chain is made of sound pieces. -/
theorem Chained.isSound {x : Piece} {xs : List Piece} (h : Chained xs) (hx : x ∈ xs) :
    x.IsSound := by
  obtain ⟨before, after, rfl⟩ := List.append_of_mem hx
  exact h.of_append.1

/-- An open string is the last piece. -/
theorem Chained.eq_nil_of_openString {body : List Char} {xs : List Piece}
    (h : Chained (openString body :: xs)) : xs = [] := by
  obtain ⟨-, hstop, hrest⟩ := h
  have htext : xs.flatMap chars = [] := hstop
  cases xs with
  | nil => rfl
  | cons x xs => exact absurd (List.append_eq_nil_iff.1 htext).1 hrest.1.chars_ne_nil

/-- The pieces of a text form a chain. -/
theorem chained_cut (s : List Char) : Chained (cut s) := by
  fun_induction cut s with
  | case1 => trivial
  | case2 c rest ih =>
    obtain ⟨hx, hstop⟩ := read_sound c rest
    exact ⟨hx, by rwa [flatMap_chars_cut], ih⟩

/-- **Pieces are cut from their text** exactly if they are sound and each stops at the next. -/
theorem cut_flatMap_iff {xs : List Piece} : cut (xs.flatMap chars) = xs ↔ Chained xs := by
  constructor
  · intro h
    exact h ▸ chained_cut (xs.flatMap chars)
  · intro h
    induction xs with
    | nil => rw [List.flatMap_nil, cut_nil]
    | cons x xs ih => rw [List.flatMap_cons, cut_append h.1 h.2.1, ih h.2.2]

/-- The pieces behind some cut are those of the text they make up. -/
theorem cut_flatMap_of_append {s : List Char} {xs ys : List Piece} (h : cut s = xs ++ ys) :
    cut (ys.flatMap chars) = ys :=
  cut_flatMap_iff.2 (.of_append (h ▸ chained_cut s))

/-- The pieces of a text are sound. -/
theorem isSound_of_mem_cut {s : List Char} {x : Piece} (h : x ∈ cut s) : x.IsSound :=
  (chained_cut s).isSound h

/-- The text of a sound piece is cut into that piece alone. -/
theorem cut_chars {x : Piece} (hx : x.IsSound) : cut x.chars = [x] := by
  have h := cut_append hx (stopsAt_nil x)
  rwa [List.append_nil, cut_nil] at h

/-- Sound pieces are told apart by their characters. -/
theorem IsSound.eq_of_chars {x y : Piece} (hx : x.IsSound) (hy : y.IsSound)
    (h : x.chars = y.chars) : x = y := by
  have hcut := cut_chars hx
  rw [h, cut_chars hy] at hcut
  exact (List.singleton_inj.1 hcut).symm

end Piece

end LoxLexer
