import LoxLexer.Proofs.ShortestDecimals
import LoxLexer.Proofs.Contents

/-!
# Displayed numbers are read back

A number is displayed as the numeral of its shortest decimal. That numeral is one piece, so the
lexer takes it for a number and for nothing else (`Numeral.WellFormed.lex_chars`), and it stands for
a decimal that is rounded to where the number came from (`nearest_toNumeral_shortest`).

That no shorter numeral does is a matter of significant digits. Those of the displayed numeral are
the digits of the shortest decimal, all of them, since two decimals without zeros at the end that
are equal have the same digits (`Decimal.digits_eq_of_value`); and of these no decimal of the rank
has fewer (`pow_le_digits`).
-/

namespace LoxLexer

variable {n : Numeral}

/-! ### Reading a numeral -/

theorem Numeral.WellFormed.number_chars (h : n.WellFormed) : Grammar.Number n.chars := by
  rcases h.chars_cases with ⟨-, hchars⟩ | ⟨hfraction, hchars⟩
  · exact .inl (hchars ▸ h.digits_whole)
  · exact .inr ⟨_, _, h.digits_whole, hfraction, hchars⟩

/-- The outcome of lexing a text that is one number. -/
def Lexed.ofNumber (text : String) (x : Binary64) : Lexed where
  tokens := [⟨.number, text, some (.number x), .start⟩,
    .endOfFile (Position.start.after text.toList)]
  reports := []

theorem Lexed.ofNumber_inj {text : String} {x y : Binary64} :
    ofNumber text x = ofNumber text y ↔ x = y := by
  simp [ofNumber]

/-- A numeral is read from end to end. -/
theorem Numeral.WellFormed.lex_chars (h : n.WellFormed) :
    lex (.ofList n.chars) = .ofNumber (.ofList n.chars) (.nearest n.toDecimal) := by
  have hpieces : placedPieces n.chars = [⟨.number n.chars, .start⟩] :=
    congrArg (Piece.place .start) (Piece.cut_chars (x := .number n.chars) h.number_chars)
  have hread : Numeral.ofChars? n.chars = some n := Numeral.ofChars?_eq_some_iff.2 ⟨h, rfl⟩
  have hevent : PlacedPiece.event? ⟨.number n.chars, .start⟩ =
      some (.token ⟨.number, .ofList n.chars, some (.number (.nearest n.toDecimal)), .start⟩) := by
    rw [PlacedPiece.event?]
    simp only [hread]
    rfl
  rw [lex, String.toList_ofList, events, hpieces, List.filterMap_cons_some hevent, Lexed.ofNumber,
    String.toList_ofList]
  rfl

/-! ### What is displayed -/

namespace Binary64

variable {r : Nat}

/-- A finite number without a sign is displayed by the shortest decimal of its rank. -/
theorem text_ofRank (hr : r < infinityRank) :
    (ofRank r).text = .ofList (shortest r).toNumeral.chars := by
  have hrank : (ofRank r).rank = r := rank_ofRank hr.le
  have hnan : ¬ (ofRank r).isNaN := by
    rw [isNaN, hrank, decide_eq_true_eq]
    exact hr.not_gt
  have hsign : ¬ (ofRank r).isNegative := by
    have hlt : infinityRank < Nat.pow 2 63 := by decide
    rw [isNegative, toNat_bits_ofRank hr.le, decide_eq_true_eq]
    omega
  rw [text, chars, if_neg hnan, if_neg hsign, magnitudeChars, hrank, if_pos hr,
    Decimal.chars_toNumeral]

/-- The shortest decimal of a rank, written out. -/
theorem nearest_toNumeral_shortest (hr : r < infinityRank) :
    nearest (shortest r).toNumeral.toDecimal = ofRank r := by
  rw [nearest, nearestRank_congr (Decimal.value_toNumeral _), nearestRank_shortest hr]

/-- Behind the point of a shortest decimal no zero stands at the end. -/
theorem getLast?_fractionDigits_shortest (hr : r < infinityRank) :
    (shortest r).fractionDigits.getLast? ≠ some '0' := by
  by_cases hpos : r = 0
  · rw [hpos, shortest_zero]
    decide
  · exact Decimal.getLast?_fractionDigits_ne (digits_shortest_mod_ten hpos hr)

/-- A numeral that is rounded to a rank has no fewer significant digits than its shortest
decimal. -/
theorem length_significantDigits_shortest_le {n : Numeral} (hn : n.WellFormed)
    (hr : r < infinityRank) (h : nearestRank n.toDecimal = r) :
    (significantDigits (shortest r).toNumeral.chars).length ≤
      (significantDigits n.chars).length := by
  by_cases hpos : r = 0
  · -- zero has no significant digits
    have hzero : significantDigits (Decimal.toNumeral ⟨0, 0⟩).chars = [] := by decide
    rw [hpos, shortest_zero, hzero]
    exact Nat.zero_le _
  obtain ⟨k, e, hvalue, hlt, hdigits⟩ := (shortest r).wellFormed_toNumeral.exists_value_eq
  obtain ⟨m, e', hvalue', hlt', -⟩ := hn.exists_value_eq
  rw [Decimal.value_toNumeral] at hvalue
  by_cases hnil : significantDigits (shortest r).toNumeral.chars = []
  · rw [hnil]
    exact Nat.zero_le _
  obtain ⟨hle, hmod⟩ := hdigits hnil
  have hk : (shortest r).digits = k :=
    Decimal.digits_eq_of_value (e := ⟨k, e⟩) (digits_shortest_mod_ten hpos hr) hmod hvalue
  have hm : 10 ^ ((significantDigits (shortest r).toNumeral.chars).length - 1) ≤ m :=
    pow_le_digits hpos hr ((nearestRank_congr hvalue').symm.trans h) (hk ▸ hle)
  have hpow := (Nat.pow_lt_pow_iff_right (by decide)).1 (hm.trans_lt hlt')
  omega

/-- The text `s` is what `x` is displayed as and what is read as `x`, and it is as short as can
be. -/
structure IsShortestText (x : Binary64) (s : String) : Prop where
  /-- Digits, or digits on both sides of a point, with no zero in front or behind that could be
  left out. -/
  numeral : ∃ whole fraction, Grammar.Digits whole ∧
    (whole.head? = some '0' → whole = ['0']) ∧
    (fraction = [] ∧ s = .ofList whole ∨
      Grammar.Digits fraction ∧ fraction.getLast? ≠ some '0' ∧
        s = .ofList (whole ++ '.' :: fraction))
  /-- It is read as one number, without reports. -/
  reads : lex s = .ofNumber s x
  displays : (Literal.number x).text = s
  /-- No number that is read as `x` has fewer significant digits. -/
  shortest : ∀ m : String, Grammar.Number m.toList → lex m = .ofNumber m x →
    (significantDigits s.toList).length ≤ (significantDigits m.toList).length

theorem nearest_eq_ofRank_iff {d : Decimal} (hr : r ≤ infinityRank) :
    nearest d = ofRank r ↔ nearestRank d = r := by
  refine ⟨fun h ↦ ?_, fun h ↦ by rw [nearest, h]⟩
  have hrank := congrArg rank h
  rwa [nearest, rank_ofRank (nearestRank_le d), rank_ofRank hr] at hrank

/-- **A finite rank has a shortest text.** -/
theorem isShortestText_shortest (hr : r < infinityRank) :
    IsShortestText (ofRank r) (.ofList (Binary64.shortest r).toNumeral.chars) := by
  have hwell := (Binary64.shortest r).wellFormed_toNumeral
  constructor
  · refine ⟨_, (Binary64.shortest r).fractionDigits, hwell.digits_whole,
      Decimal.wholeDigits_eq_of_head?, ?_⟩
    rcases hwell.chars_cases with ⟨hnil, hchars⟩ | ⟨hfraction, hchars⟩
    · exact .inl ⟨hnil, congrArg _ hchars⟩
    · exact .inr ⟨hfraction, getLast?_fractionDigits_shortest hr, congrArg _ hchars⟩
  · rw [hwell.lex_chars, nearest_toNumeral_shortest hr]
  · exact text_ofRank hr
  · intro m hm hread
    obtain ⟨n, hn⟩ := Numeral.exists_ofChars?_of_number hm
    obtain ⟨hwell', hchars⟩ := Numeral.ofChars?_eq_some_iff.1 hn
    have htext : m = .ofList n.chars := by rw [hchars, String.ofList_toList]
    rw [htext, hwell'.lex_chars] at hread
    rw [String.toList_ofList, ← hchars]
    exact length_significantDigits_shortest_le hwell' hr
      ((nearest_eq_ofRank_iff hr.le).1 (Lexed.ofNumber_inj.1 hread))

end Binary64

/-- **A displayed number is read back.** What the literal of a number token is displayed as, if it
is finite, is read as that very literal and displayed as itself again. Of all numbers that are read
as the literal none has fewer significant digits. -/
theorem number_displays_back {source : String} {t : Token} (ht : t ∈ (lex source).tokens)
    (hkind : t.kind = .number) : ∃ x : Binary64, t.literal = some (.number x) ∧
      (x.isFinite → x.IsShortestText (Literal.number x).text) := by
  obtain ⟨n, -, -, hliteral⟩ := exists_numeral_of_token ht hkind
  refine ⟨.ofRank (Binary64.nearestRank n.toDecimal), hliteral, fun hfinite ↦ ?_⟩
  rw [Binary64.isFinite, Binary64.rank_ofRank (Binary64.nearestRank_le _),
    decide_eq_true_eq] at hfinite
  rw [Literal.text, Binary64.text_ofRank hfinite]
  exact Binary64.isShortestText_shortest hfinite

/-- An odd number half way between two doubles is displayed as the even one below it. -/
theorem number_displays_back_of_tie :
    ⟨.number, "9007199254740993", some (.number ⟨0x4340000000000000⟩), .start⟩ ∈
        (lex "9007199254740993").tokens ∧
      Binary64.IsShortestText ⟨0x4340000000000000⟩ "9007199254740992" := by
  have ht : (lex "9007199254740993").tokens[0]? =
      some ⟨.number, "9007199254740993", some (.number ⟨0x4340000000000000⟩), .start⟩ := by
    decide +kernel
  have hshortest : Binary64.shortest 0x4340000000000000 = ⟨9007199254740992, 0⟩ :=
    Binary64.shortest_eq_of_onGrid? (g := 0) (by decide) (by decide) (by decide +kernel)
      (by decide +kernel)
  have htext : (Literal.number ⟨0x4340000000000000⟩).text = "9007199254740992" := by
    refine (Binary64.text_ofRank (r := 0x4340000000000000) (by decide)).trans ?_
    rw [hshortest]
    decide +kernel
  obtain ⟨x, hx, hback⟩ := number_displays_back (List.mem_of_getElem? ht) rfl
  cases hx
  exact ⟨List.mem_of_getElem? ht, htext ▸ hback (by decide)⟩

end LoxLexer
