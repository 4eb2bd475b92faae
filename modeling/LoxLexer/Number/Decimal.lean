/-!
# Decimals and numerals

A decimal is a whole number of units of some power of ten. It is the common currency of this
folder: numerals read as decimals, doubles are rounded from decimals and written as decimals. As a
fraction (`num` over `den`) it needs no division, and its positional text spells out every place,
however many there are.

A numeral is a run of ASCII digits, optionally followed by a point and a second run. A point that
no digit follows is not part of a numeral, so the longest numeral at the head of a text
(`Numeral.span`) needs two characters of lookahead behind the first run and no more.
`Numeral.ofChars?` reads exactly these texts, and `Numeral.toDecimal` gives the number that one
stands for: all its digits read as one integer, over a power of ten for the second run.
-/

namespace LoxLexer

/-! ### Decimals -/

/-- The number `digits * 10 ^ exponent`. -/
structure Decimal where
  digits : Nat
  exponent : Int
  deriving DecidableEq

namespace Decimal

/-- The numerator of a decimal, over `den`. -/
def num (d : Decimal) : Nat := d.digits * Nat.pow 10 d.exponent.toNat

/-- The denominator of a decimal: a power of ten, one unless the exponent is negative. -/
def den (d : Decimal) : Nat := Nat.pow 10 (-d.exponent).toNat

theorem den_pos (d : Decimal) : 0 < d.den := Nat.pow_pos (by decide)

/-- The number of places behind the point. -/
def places (d : Decimal) : Nat := (-d.exponent).toNat

/-- The digits of a decimal with zeros put behind them up to the unit place, and in front so that
at least one digit precedes the point. -/
def paddedDigits (d : Decimal) : List Char :=
  let written := Nat.toDigits 10 d.num
  List.replicate (d.places + 1 - written.length) '0' ++ written

/-- The digits in front of the point. -/
def wholeDigits (d : Decimal) : List Char :=
  d.paddedDigits.take (d.paddedDigits.length - d.places)

/-- The digits behind the point. -/
def fractionDigits (d : Decimal) : List Char :=
  d.paddedDigits.drop (d.paddedDigits.length - d.places)

/-- The decimal in positional notation. A point is written if and only if places follow it; there
is never an exponent. -/
def chars (d : Decimal) : List Char :=
  if d.places = 0 then d.wholeDigits else d.wholeDigits ++ '.' :: d.fractionDigits

end Decimal

/-! ### Numerals -/

/-- A numeral: the digits in front of the point and those behind it. Without a point the second
list is empty. -/
structure Numeral where
  whole : List Char
  fraction : List Char
  deriving DecidableEq

namespace Numeral

/-- Both runs hold digits only, and the first is not empty. -/
def WellFormed (n : Numeral) : Prop :=
  n.whole ≠ [] ∧ (∀ c ∈ n.whole, c.isDigit) ∧ ∀ c ∈ n.fraction, c.isDigit

-- by way of the runs: taken as a statement on all characters, it may be decided by trying them all
instance (n : Numeral) : Decidable n.WellFormed :=
  decidable_of_iff (n.whole ≠ [] ∧ n.whole.all Char.isDigit ∧ n.fraction.all Char.isDigit)
    (by simp only [WellFormed, List.all_eq_true])

/-- The text of a numeral. -/
def chars (n : Numeral) : List Char :=
  if n.fraction = [] then n.whole else n.whole ++ '.' :: n.fraction

/-- The number a numeral stands for. -/
def toDecimal (n : Numeral) : Decimal :=
  ⟨Nat.ofDigitChars 10 (n.whole ++ n.fraction) 0, -n.fraction.length⟩

/-- Splits off the longest numeral at the head of a text that begins with a digit. -/
def span (s : List Char) : List Char × List Char :=
  let whole := s.takeWhile Char.isDigit
  let rest := s.dropWhile Char.isDigit
  let fraction := rest.tail.takeWhile Char.isDigit
  if rest.head? = some '.' ∧ fraction ≠ [] then
    (whole ++ '.' :: fraction, rest.tail.dropWhile Char.isDigit)
  else (whole, rest)

/-- Reads a text that is a numeral from end to end. -/
def ofChars? (s : List Char) : Option Numeral :=
  let n : Numeral := ⟨s.takeWhile Char.isDigit, (s.dropWhile Char.isDigit).tail⟩
  if n.WellFormed ∧ n.chars = s then some n else none

/-- The numeral split off and what is left are the whole text. -/
theorem span_append (s : List Char) : (span s).1 ++ (span s).2 = s := by
  rw [span]
  split
  · next h =>
    obtain ⟨rest, hrest⟩ := List.head?_eq_some_iff.1 h.1
    have hs := s.takeWhile_append_dropWhile (p := Char.isDigit)
    rw [hrest] at hs
    simpa [hrest] using hs
  · exact List.takeWhile_append_dropWhile

/-- The digits at the head of the text of a numeral are those in front of its point. -/
theorem takeWhile_chars {n : Numeral} (h : n.WellFormed) :
    n.chars.takeWhile Char.isDigit = n.whole := by
  have hrest (rest : List Char) :
      (n.whole ++ rest).takeWhile Char.isDigit = n.whole ++ rest.takeWhile Char.isDigit :=
    List.takeWhile_append_of_pos h.2.1
  rw [chars]
  split
  · simpa using hrest []
  · simpa using hrest ('.' :: n.fraction)

/-- Behind the first run and the point are the digits of the second run. -/
theorem tail_dropWhile_chars {n : Numeral} (h : n.WellFormed) :
    (n.chars.dropWhile Char.isDigit).tail = n.fraction := by
  have hrest (rest : List Char) :
      (n.whole ++ rest).dropWhile Char.isDigit = rest.dropWhile Char.isDigit :=
    List.dropWhile_append_of_pos h.2.1
  rw [chars]
  split
  · next hnil => simpa [hnil] using congrArg List.tail (hrest [])
  · simpa using congrArg List.tail (hrest ('.' :: n.fraction))

/-- A text is read if and only if it is a numeral's, and then as that numeral. -/
theorem ofChars?_eq_some_iff {s : List Char} {n : Numeral} :
    ofChars? s = some n ↔ n.WellFormed ∧ n.chars = s := by
  constructor
  · intro h
    rw [ofChars?] at h
    split at h
    · next hn => cases h; exact hn
    · contradiction
  · rintro ⟨h, rfl⟩
    simp [ofChars?, takeWhile_chars h, tail_dropWhile_chars h, h]

end Numeral

end LoxLexer
