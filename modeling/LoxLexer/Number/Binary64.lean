import LoxLexer.Number.Decimal

/-!
# Binary64 numbers

A double is its sixty-four bits. Leaving out the sign bit, the patterns count the magnitudes in
increasing order: `0` is zero, `1` the least positive number `2 ^ (-1074)`, and `infinityRank`
infinity, with the NaNs above it. The pattern so read is the **rank** of a magnitude. Every finite
magnitude is a whole number of least positive numbers, `units rank`, so that rounding a decimal
(`nearest`) is exact integer arithmetic. A finite double is displayed by the shortest decimal that
is rounded to it (`shortest`).
-/

namespace LoxLexer

/-- A number in the IEEE 754 binary64 format. -/
structure Binary64 where
  bits : UInt64
  deriving DecidableEq

namespace Binary64

/-! ### Ranks -/

/-- The rank of infinity. -/
def infinityRank : Nat := 0x7FF * Nat.pow 2 52

/-- The magnitude of that rank in units of `2 ^ (-1074)`. Below rank `2 ^ 52` the numbers are
evenly spaced; from there on the spacing doubles every `2 ^ 52` ranks. -/
def units (rank : Nat) : Nat :=
  if rank < Nat.pow 2 52 then rank
  else (Nat.pow 2 52 + rank % Nat.pow 2 52) * Nat.pow 2 (rank / Nat.pow 2 52 - 1)

/-- The rank of the magnitude of a double. -/
def rank (x : Binary64) : Nat := x.bits.toNat % Nat.pow 2 63

/-- The sign bit is set. -/
def isNegative (x : Binary64) : Bool := Nat.pow 2 63 ≤ x.bits.toNat

def isNaN (x : Binary64) : Bool := infinityRank < x.rank

def isFinite (x : Binary64) : Bool := x.rank < infinityRank

/-- The double without a sign that has this rank. -/
def ofRank (rank : Nat) : Binary64 := ⟨rank.toUInt64⟩

/-- Doubles compare as numbers do: a NaN differs from everything, itself included, and the two
zeros are the same number. -/
instance : BEq Binary64 where
  beq x y := !x.isNaN && !y.isNaN && (x.bits == y.bits || x.rank == 0 && y.rank == 0)

/-! ### Rounding -/

/-- The whole number nearest to `num / den`; a tie goes to the even one. -/
def roundDiv (num den : Nat) : Nat :=
  let q := num / den
  let twice := 2 * (num % den)
  if twice < den ∨ (twice = den ∧ q % 2 = 0) then q else q + 1

/-- The rank of the magnitude nearest to a decimal, infinity if that lies beyond the largest finite
one; a tie goes to the even rank. The spacing of doubles around the decimal is `2 ^ shift` units. -/
def nearestRank (d : Decimal) : Nat :=
  let scaled := d.num * Nat.pow 2 1074
  let shift := (scaled / d.den).log2 - 52
  min infinityRank (shift * Nat.pow 2 52 + roundDiv scaled (d.den * Nat.pow 2 shift))

/-- The double nearest to a decimal. -/
def nearest (d : Decimal) : Binary64 := ofRank (nearestRank d)

/-! ### The shortest decimal

Among the decimals that are rounded to a given double, one with the fewest digits lies on the
coarsest grid of powers of ten that holds any of them. The search runs through the grids from
coarse to fine and tests on each the two points that enclose the double: every decimal on the grid
that is rounded to the double has one of these between itself and the double. Of two points that
both are rounded to it the nearer wins, and the upper one if they are equally near.

The grid of `10 ^ (-1074)` holds every finite double itself, so the search ends there at the latest.
-/

/-- The two points of the grid of `10 ^ exponent` around the magnitude of that rank, the nearer one
in front. -/
def neighbours (rank : Nat) (exponent : Int) : List Decimal :=
  let num := units rank * Nat.pow 10 (-exponent).toNat
  let den := Nat.pow 2 1074 * Nat.pow 10 exponent.toNat
  let lower : Decimal := ⟨num / den, exponent⟩
  let upper : Decimal := ⟨num / den + 1, exponent⟩
  if 2 * (num % den) < den then [lower, upper] else [upper, lower]

/-- The nearer point on the grid of `10 ^ exponent` that is rounded to that rank. -/
def onGrid? (rank : Nat) (exponent : Int) : Option Decimal :=
  (neighbours rank exponent).find? fun d ↦ nearestRank d = rank

/-- The exponents of the grids, from coarse to fine. The first exceeds every finite double. -/
def gridExponents : List Int := (List.range 1384).map fun i : Nat ↦ (309 : Int) - i

/-- The magnitude of that rank, digit by digit to the last. -/
def exact (rank : Nat) : Decimal := ⟨units rank * Nat.pow 5 1074, -1074⟩

/-- The decimal with the fewest digits that is rounded to the finite magnitude of that rank. -/
def shortest (rank : Nat) : Decimal :=
  if rank = 0 then ⟨0, 0⟩ else (gridExponents.findSome? (onGrid? rank)).getD (exact rank)

/-! ### Text -/

/-- The magnitude of that rank in positional notation. -/
def magnitudeChars (rank : Nat) : List Char :=
  if rank < infinityRank then (shortest rank).chars else ['i', 'n', 'f']

/-- A double as text. -/
def chars (x : Binary64) : List Char :=
  if x.isNaN then ['N', 'a', 'N']
  else if x.isNegative then '-' :: magnitudeChars x.rank
  else magnitudeChars x.rank

def text (x : Binary64) : String := String.ofList x.chars

end Binary64

end LoxLexer
