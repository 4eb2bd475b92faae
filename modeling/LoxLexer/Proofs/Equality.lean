import LoxLexer.Proofs.Literals
import LoxLexer.Proofs.Rounding

/-!
# When tokens compare as equal

Doubles compare as numbers do (`Binary64.beq_iff_sameNumber`), and that is no equality: a NaN is not
the same as itself, and the two zeros are the same although they differ. Both exceptions are out of
reach for what is rounded from a numeral, which has no sign and is no NaN, whatever the digits
(`Binary64.isMagnitude_nearest`). On such doubles the comparison is equality of bits
(`Binary64.IsMagnitude.beq_iff`), so it is equality on the tokens of all sources, and on lists of
them (`Token.IsLexed.beq_iff`, `list_beq_iff`). That it is reflexive, symmetric and transitive there
needs no further proof.

With rounding brought in (`Binary64.IsNearest`), two number literals compare as equal exactly if
what their lexemes stand for is rounded to the same double.
-/

namespace LoxLexer

/-! ### Comparing doubles -/

namespace Binary64

variable {x y : Binary64}

/-- The infinity of either sign. -/
def IsInfinite (x : Binary64) : Prop := x.exponentField = 2 ^ 11 - 1 ∧ x.fractionField = 0

/-- All bits of the exponent are set, and some of the fraction. -/
def IsNaN (x : Binary64) : Prop := x.exponentField = 2 ^ 11 - 1 ∧ x.fractionField ≠ 0

/-- The two doubles are one number: they have the same value, or they are the same infinity. -/
inductive SameNumber : Binary64 → Binary64 → Prop
  | finite {x y : Binary64} (hx : x.HasValue) (hy : y.HasValue) (h : x.value = y.value) :
      SameNumber x y
  | infinite {x : Binary64} (h : x.IsInfinite) : SameNumber x x

theorem bits_eq_iff : x.bits = y.bits ↔ x = y := by
  obtain ⟨bits⟩ := x
  obtain ⟨bits'⟩ := y
  rw [mk.injEq]

theorem isNaN_iff : x.isNaN ↔ x.IsNaN := by
  have hlt : x.rank < 2 ^ 63 := Nat.mod_lt _ (by decide)
  rw [isNaN, decide_eq_true_eq, IsNaN, exponentField_eq, fractionField_eq]
  simp only [infinityRank, Nat.pow_eq]
  omega

theorem not_isNaN_iff : ¬ x.IsNaN ↔ x.rank ≤ infinityRank := by
  rw [← isNaN_iff, isNaN, decide_eq_true_eq, Nat.not_lt]

/-- Two doubles compare as equal if they are, or if both are zeros, unless one is a NaN. -/
theorem beq_iff : (x == y) = true ↔
    ¬ x.IsNaN ∧ ¬ y.IsNaN ∧ (x = y ∨ (x.rank = 0 ∧ y.rank = 0)) := by
  show (!x.isNaN && !y.isNaN && (x.bits == y.bits || x.rank == 0 && y.rank == 0)) = true ↔ _
  simp only [Bool.and_eq_true, Bool.or_eq_true, Bool.not_eq_true', ← Bool.not_eq_true, isNaN_iff,
    beq_iff_eq, bits_eq_iff, and_assoc]

/-- Doubles of one value are the same, but for the sign of zero. -/
theorem eq_or_zero_of_value_eq (h : x.value = y.value) : x = y ∨ (x.rank = 0 ∧ y.rank = 0) := by
  rw [value_eq, value_eq] at h
  have hx := magnitude_nonneg x.rank
  have hy := magnitude_nonneg y.rank
  have hrank (heq : magnitude x.rank = magnitude y.rank) : x.rank = y.rank :=
    magnitude_strictMono.injective heq
  have hzero {r : Nat} (hr : magnitude r = 0) : r = 0 :=
    magnitude_strictMono.injective (hr.trans magnitude_zero.symm)
  rcases x.signField_cases with hsx | hsx <;> rcases y.signField_cases with hsy | hsy <;>
    simp only [hsx, hsy, pow_zero, pow_one, one_mul, neg_one_mul] at h
  · exact .inl (eq_of_rank (hsx.trans hsy.symm) (hrank h))
  · exact .inr ⟨hzero (by linarith), hzero (by linarith)⟩
  · exact .inr ⟨hzero (by linarith), hzero (by linarith)⟩
  · exact .inl (eq_of_rank (hsx.trans hsy.symm) (hrank (neg_inj.1 h)))

theorem value_of_rank_eq_zero (h : x.rank = 0) : x.value = 0 := by
  rw [value_eq, h, magnitude_zero, mul_zero]

/-- **Doubles compare as numbers do.** -/
theorem beq_iff_sameNumber : (x == y) = true ↔ SameNumber x y := by
  rw [beq_iff, not_isNaN_iff, not_isNaN_iff]
  constructor
  · intro ⟨hx, hy, h⟩
    rcases h with rfl | ⟨hxzero, hyzero⟩
    · rcases hx.lt_or_eq with hlt | heq
      · exact .finite (hasValue_iff.2 hlt) (hasValue_iff.2 hlt) rfl
      · exact .infinite (infinity_iff.2 heq)
    · refine .finite (hasValue_iff.2 ?_) (hasValue_iff.2 ?_) ?_
      · rw [hxzero]
        decide
      · rw [hyzero]
        decide
      · rw [value_of_rank_eq_zero hxzero, value_of_rank_eq_zero hyzero]
  · intro h
    match h with
    | .finite hx hy hvalue =>
      exact ⟨(hasValue_iff.1 hx).le, (hasValue_iff.1 hy).le, eq_or_zero_of_value_eq hvalue⟩
    | .infinite hx => exact ⟨(infinity_iff.1 hx).le, (infinity_iff.1 hx).le, .inl rfl⟩

/-! ### Doubles without a sign -/

/-- Zero, a positive number or infinity: no sign, and no NaN. -/
structure IsMagnitude (x : Binary64) : Prop where
  unsigned : x.signField = 0
  number : ¬ x.IsNaN

/-- **Rounding gives no sign and no NaN**, not even where it overflows or nothing is left. -/
theorem isMagnitude_nearest (d : Decimal) : (nearest d).IsMagnitude where
  unsigned := (isNearest_nearest d).unsigned
  number := by
    rw [not_isNaN_iff, nearest, rank_ofRank (nearestRank_le d)]
    exact nearestRank_le d

/-- On magnitudes the comparison is equality of bits. -/
theorem IsMagnitude.beq_iff (hx : x.IsMagnitude) (hy : y.IsMagnitude) :
    (x == y) = true ↔ x = y := by
  rw [Binary64.beq_iff]
  refine ⟨fun h ↦ ?_, fun h ↦ ⟨hx.number, hy.number, .inl h⟩⟩
  rcases h.2.2 with heq | ⟨hxzero, hyzero⟩
  · exact heq
  · exact eq_of_rank (hx.unsigned.trans hy.unsigned.symm) (hxzero.trans hyzero.symm)

end Binary64

/-! ### Comparing tokens -/

/-- The literals are both absent, the same string, or doubles with the same bits. -/
inductive Literal.Coincide : Option Literal → Option Literal → Prop
  | none : Coincide none none
  | string (s : String) : Coincide (some (.string s)) (some (.string s))
  | number {x y : Binary64} (h : x.bits = y.bits) : Coincide (some (.number x)) (some (.number y))

theorem Literal.coincide_iff {l m : Option Literal} : Coincide l m ↔ l = m := by
  constructor
  · intro h
    match h with
    | .none => rfl
    | .string _ => rfl
    | .number hbits => rw [Binary64.bits_eq_iff.1 hbits]
  · intro h
    subst h
    match l with
    | .none => exact .none
    | some (.string s) => exact .string s
    | some (.number _) => exact .number rfl

/-- Literals whose numbers are magnitudes compare as equal exactly if they are equal. -/
theorem Literal.beq_iff {l m : Literal} (hl : ∀ x, l = .number x → x.IsMagnitude)
    (hm : ∀ x, m = .number x → x.IsMagnitude) : (l == m) = true ↔ l = m := by
  match l, m with
  | .string v, .string w =>
    show (v == w) = true ↔ _
    rw [beq_iff_eq, Literal.string.injEq]
  | .number x, .number y =>
    show (x == y) = true ↔ _
    rw [(hl x rfl).beq_iff (hm y rfl), Literal.number.injEq]
  | .string _, .number _ => exact iff_of_false Bool.false_ne_true Literal.noConfusion
  | .number _, .string _ => exact iff_of_false Bool.false_ne_true Literal.noConfusion

/-- Tokens are equal if they agree in everything. -/
theorem Token.eq_iff {s t : Token} : s = t ↔
    s.kind = t.kind ∧ s.lexeme = t.lexeme ∧ s.start.line = t.start.line ∧
      s.start.column = t.start.column ∧ s.start.offset = t.start.offset ∧
      s.literal = t.literal := by
  constructor
  · intro h
    subst h
    exact ⟨rfl, rfl, rfl, rfl, rfl, rfl⟩
  · intro ⟨hkind, hlexeme, hline, hcolumn, hoffset, hliteral⟩
    obtain ⟨kind, lexeme, literal, line, column, offset⟩ := s
    obtain ⟨kind', lexeme', literal', line', column', offset'⟩ := t
    subst hkind hlexeme hline hcolumn hoffset hliteral
    rfl

/-- A token of some source. -/
def Token.IsLexed (t : Token) : Prop := ∃ source, t ∈ (lex source).tokens

/-- The number that the text of a numeral stands for, all its digits taken exactly: those in front
of the point, and those behind it. -/
def exactValue (text : String) : ℚ :=
  positionalValue (text.toList.takeWhile Char.isDigit) (text.toList.dropWhile Char.isDigit).tail

namespace Token.IsLexed

variable {s t : Token}

/-- The literal of a number is the nearest double to what its lexeme stands for. -/
theorem exists_isNearest (ht : t.IsLexed) (hkind : t.kind = .number) :
    ∃ x : Binary64, t.literal = some (.number x) ∧ x.IsMagnitude ∧
      x.IsNearest (exactValue t.lexeme) := by
  obtain ⟨source, hmem⟩ := ht
  obtain ⟨n, hn, hlexeme, hliteral⟩ := exists_numeral_of_token hmem hkind
  have hexact : exactValue t.lexeme = n.toDecimal.value := by
    rw [exactValue, hlexeme, String.toList_ofList, Numeral.takeWhile_chars hn,
      Numeral.tail_dropWhile_chars hn, n.value_toDecimal]
  refine ⟨_, hliteral, Binary64.isMagnitude_nearest n.toDecimal, ?_⟩
  rw [hexact]
  exact Binary64.isNearest_nearest n.toDecimal

/-- The number of a token that was lexed has no sign and is no NaN. -/
theorem isMagnitude {x : Binary64} (ht : t.IsLexed) (hx : t.literal = some (.number x)) :
    x.IsMagnitude := by
  obtain ⟨source, hmem⟩ := id ht
  have hkind : t.kind = .number := by
    rcases literal_cases hmem with ⟨-, s, hs, -⟩ | ⟨hkind, -⟩ | ⟨-, hnone⟩
    · exact absurd (hs.symm.trans hx) (by simp)
    · exact hkind
    · exact absurd (hnone.symm.trans hx) (by simp)
  obtain ⟨y, hy, hmagnitude, -⟩ := ht.exists_isNearest hkind
  obtain rfl : x = y := by simpa using hx.symm.trans hy
  exact hmagnitude

theorem literal_beq_iff (hs : s.IsLexed) (ht : t.IsLexed) :
    (s.literal == t.literal) = true ↔ s.literal = t.literal := by
  have hsx {x : Binary64} (h : s.literal = some (.number x)) := hs.isMagnitude h
  have htx {x : Binary64} (h : t.literal = some (.number x)) := ht.isMagnitude h
  match hsl : s.literal, htl : t.literal with
  | none, none => exact iff_of_true rfl rfl
  | none, some _ => exact iff_of_false Bool.false_ne_true (Option.some_ne_none _).symm
  | some _, none => exact iff_of_false Bool.false_ne_true (Option.some_ne_none _)
  | some l, some m =>
    rw [Option.some_beq_some, Option.some.injEq]
    refine Literal.beq_iff (fun x hx ↦ hsx ?_) (fun x hx ↦ htx ?_)
    · rw [hsl, hx]
    · rw [htl, hx]

/-- **Tokens of sources compare as equal** exactly if they are equal. -/
theorem beq_iff (hs : s.IsLexed) (ht : t.IsLexed) : (s == t) = true ↔ s = t := by
  show (s.kind == t.kind && s.lexeme == t.lexeme && s.literal == t.literal &&
    s.start == t.start) = true ↔ _
  rw [Bool.and_eq_true, Bool.and_eq_true, Bool.and_eq_true, beq_iff_eq, beq_iff_eq,
    hs.literal_beq_iff ht, beq_iff_eq, and_assoc, and_assoc]
  obtain ⟨kind, lexeme, literal, start⟩ := s
  obtain ⟨kind', lexeme', literal', start'⟩ := t
  rw [Token.mk.injEq]

end Token.IsLexed

/-- Lists of such tokens, too, compared token by token. -/
theorem list_beq_iff {ss ts : List Token} (hs : ∀ s ∈ ss, s.IsLexed) (ht : ∀ t ∈ ts, t.IsLexed) :
    (ss == ts) = true ↔ ss = ts := by
  induction ss generalizing ts with
  | nil =>
    match ts with
    | [] => exact iff_of_true rfl rfl
    | t :: ts => exact iff_of_false Bool.false_ne_true (List.cons_ne_nil t ts).symm
  | cons s ss ih =>
    match ts with
    | [] => exact iff_of_false Bool.false_ne_true (List.cons_ne_nil s ss)
    | t :: ts =>
      obtain ⟨hs, hss⟩ := List.forall_mem_cons.1 hs
      obtain ⟨ht, hts⟩ := List.forall_mem_cons.1 ht
      rw [List.cons_beq_cons, Bool.and_eq_true, hs.beq_iff ht, ih hss hts, List.cons.injEq]

/-- **Comparing tokens is an equality.** Doubles compare as equal if they are the same number. No
number literal of a source has a sign, not even as a zero, or is a NaN. So tokens of any two sources
compare as equal exactly if they agree in kind, lexeme, line, column and offset and their literals
coincide, and the comparison of lists of such tokens is reflexive, symmetric and transitive. Two
number literals compare as equal exactly if what their lexemes stand for is rounded to the same
double. -/
theorem token_comparison :
    (∀ x y : Binary64, (x == y) = true ↔ Binary64.SameNumber x y) ∧
    (∀ source, ∀ t ∈ (lex source).tokens, ∀ x, t.literal = some (.number x) →
      x.signField = 0 ∧ ¬ x.IsNaN) ∧
    (∀ a b, ∀ s ∈ (lex a).tokens, ∀ t ∈ (lex b).tokens, (s == t) = true ↔
      s.kind = t.kind ∧ s.lexeme = t.lexeme ∧ s.start.line = t.start.line ∧
        s.start.column = t.start.column ∧ s.start.offset = t.start.offset ∧
        Literal.Coincide s.literal t.literal) ∧
    ((∀ ts : List Token, (∀ t ∈ ts, t.IsLexed) → (ts == ts) = true) ∧
      (∀ ss ts : List Token, (∀ s ∈ ss, s.IsLexed) → (∀ t ∈ ts, t.IsLexed) →
        (ss == ts) = true → (ts == ss) = true) ∧
      ∀ rs ss ts : List Token, (∀ r ∈ rs, r.IsLexed) → (∀ s ∈ ss, s.IsLexed) →
        (∀ t ∈ ts, t.IsLexed) → (rs == ss) = true → (ss == ts) = true → (rs == ts) = true) ∧
    ∀ a b, ∀ s ∈ (lex a).tokens, ∀ t ∈ (lex b).tokens, s.kind = .number → t.kind = .number →
      ((s.literal == t.literal) = true ↔
        ∃ z : Binary64, z.IsNearest (exactValue s.lexeme) ∧ z.IsNearest (exactValue t.lexeme)) := by
  refine ⟨fun _ _ ↦ Binary64.beq_iff_sameNumber, fun source t ht x hx ↦ ?_,
    fun a b s hs t ht ↦ ?_, ⟨fun ts hts ↦ ?_, fun ss ts hss hts h ↦ ?_,
      fun rs ss ts hrs hss hts h h' ↦ ?_⟩, fun a b s hs t ht hsk htk ↦ ?_⟩
  · have hmagnitude := Token.IsLexed.isMagnitude ⟨source, ht⟩ hx
    exact ⟨hmagnitude.unsigned, hmagnitude.number⟩
  · rw [Token.IsLexed.beq_iff ⟨a, hs⟩ ⟨b, ht⟩, Literal.coincide_iff]
    exact Token.eq_iff
  · exact (list_beq_iff hts hts).2 rfl
  · exact (list_beq_iff hts hss).2 ((list_beq_iff hss hts).1 h).symm
  · exact (list_beq_iff hrs hts).2
      (((list_beq_iff hrs hss).1 h).trans ((list_beq_iff hss hts).1 h'))
  · obtain ⟨x, hx, -, hnearest⟩ := Token.IsLexed.exists_isNearest ⟨a, hs⟩ hsk
    obtain ⟨y, hy, -, hnearest'⟩ := Token.IsLexed.exists_isNearest ⟨b, ht⟩ htk
    rw [Token.IsLexed.literal_beq_iff ⟨a, hs⟩ ⟨b, ht⟩, hx, hy]
    constructor
    · intro h
      obtain rfl : x = y := by simpa using h
      exact ⟨x, hnearest, hnearest'⟩
    · intro ⟨z, hz, hz'⟩
      rw [hnearest.unique hz, hnearest'.unique hz']

/-- Beyond `2 ^ 53` two integers may be rounded to the same double, and zeros behind the point do
not count. -/
example : (lex "9007199254740993 1").tokens.map Token.literal ==
    (lex "9007199254740992 1.0").tokens.map Token.literal := by
  decide +kernel

end LoxLexer
