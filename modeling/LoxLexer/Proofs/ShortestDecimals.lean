import LoxLexer.Proofs.Positional

/-!
# The search for the shortest decimal

The decimals of a rank are those between its thresholds, so with any two of them the rank has all in
between. Hence a grid that holds one has one next to the magnitude itself (`isSome_onGrid?`), where
the search looks for it, and the search ends on the coarsest grid that holds any
(`onGrid?_shortest`). It does end: beyond the first grid lie no finite magnitudes
(`nearestRank_of_le_exponent`), and on the last one lies the magnitude itself (`value_exact`).

That the grid is the coarsest makes the decimal the shortest. Digits that could be saved, be it a
zero at the end (`digits_shortest_mod_ten`) or by a shorter decimal elsewhere (`pow_le_digits`),
would put a decimal of the rank on a coarser grid.
-/

namespace LoxLexer

namespace Binary64

variable {r : Nat} {d e : Decimal} {g : Int}

/-! ### Decimals around a magnitude -/

/-- The exact decimal of a rank has the value of the rank. -/
theorem value_exact (r : Nat) : (exact r).value = magnitude r := by
  -- the exponent goes by a name, lest its powers be written out
  obtain ⟨n, hn⟩ : ∃ n : Nat, 1074 = n := ⟨_, rfl⟩
  have hexponent : (-1074 : ℤ) = -n := by omega
  have hexact : exact r = ⟨units r * Nat.pow 5 n, -n⟩ := by
    unfold exact
    rw [hexponent, hn]
  have hone : (unitsPerOne : ℚ) = 2 ^ n := by rw [← hn, cast_unitsPerOne]
  have hten : (10 : ℚ) ^ n = 5 ^ n * 2 ^ n := by rw [← mul_pow]; norm_num
  have hfive : (5 : ℚ) ^ n ≠ 0 := by positivity
  rw [hexact, Decimal.value, magnitude, hone, Nat.pow_eq, Nat.cast_mul, Nat.cast_pow,
    Nat.cast_ofNat, zpow_neg, zpow_natCast, hten]
  field_simp

theorem exponent_exact (r : Nat) : (exact r).exponent = -1074 := rfl

/-- Every rank up to infinity is that of its exact decimal. -/
theorem nearestRank_exact (hr : r ≤ infinityRank) : nearestRank (exact r) = r :=
  nearestRank_of_value hr (value_exact r)

/-- The points of a grid around a magnitude are its multiples that enclose it. -/
theorem exists_neighbours (r : Nat) (g : Int) : ∃ k : Nat,
    (∀ d, d ∈ neighbours r g ↔ d = ⟨k, g⟩ ∨ d = ⟨k + 1, g⟩) ∧
      Decimal.value ⟨k, g⟩ ≤ magnitude r ∧ magnitude r < Decimal.value ⟨k + 1, g⟩ := by
  have hten : (0 : ℚ) < (10 ^ (-g).toNat : Nat) := by positivity
  have hone : (0 : ℚ) < unitsPerOne := Nat.cast_pos.2 unitsPerOne_pos
  have hpos : 0 < unitsPerOne * 10 ^ g.toNat := Nat.mul_pos unitsPerOne_pos (by positivity)
  refine ⟨units r * 10 ^ (-g).toNat / (unitsPerOne * 10 ^ g.toNat), fun d ↦ ?_, ?_, ?_⟩
  · have hneighbours : neighbours r g =
        let num := units r * Nat.pow 10 (-g).toNat
        let den := unitsPerOne * Nat.pow 10 g.toNat
        if 2 * (num % den) < den then [⟨num / den, g⟩, ⟨num / den + 1, g⟩]
        else [⟨num / den + 1, g⟩, ⟨num / den, g⟩] := by
      unfold neighbours unitsPerOne
      with_reducible rfl
    simp only [hneighbours, Nat.pow_eq]
    split
    · simp
    · simp [or_comm]
  · rw [Decimal.value_eq_div, magnitude, Decimal.num, Decimal.den, Nat.pow_eq, Nat.pow_eq,
      div_le_div_iff₀ hten hone, ← Nat.cast_mul, ← Nat.cast_mul, Nat.cast_le, Nat.mul_assoc,
      Nat.mul_comm _ unitsPerOne]
    exact Nat.div_mul_le_self _ _
  · rw [Decimal.value_eq_div, magnitude, Decimal.num, Decimal.den, Nat.pow_eq, Nat.pow_eq,
      div_lt_div_iff₀ hone hten, ← Nat.cast_mul, ← Nat.cast_mul, Nat.cast_lt, Nat.mul_assoc,
      Nat.mul_comm _ unitsPerOne, Nat.mul_comm (_ + 1)]
    exact Nat.lt_mul_div_succ _ hpos

/-- A grid that holds some decimal of the rank has one next to the magnitude. -/
theorem isSome_onGrid? (hr : r < infinityRank) (h : nearestRank d = r) :
    (onGrid? r d.exponent).isSome := by
  obtain ⟨k, hmem, hlower, hupper⟩ := exists_neighbours r d.exponent
  have hexact := nearestRank_exact hr.le
  have hgrid {m n : Nat} (hmn : m ≤ n) :
      Decimal.value ⟨m, d.exponent⟩ ≤ Decimal.value ⟨n, d.exponent⟩ :=
    mul_le_mul_of_nonneg_right (Nat.cast_le.2 hmn) (by positivity)
  rw [onGrid?, List.find?_isSome]
  rcases Nat.lt_or_ge k d.digits with hk | hk
  · refine ⟨⟨k + 1, d.exponent⟩, (hmem _).2 (.inr rfl), decide_eq_true ?_⟩
    refine Nat.le_antisymm ?_ ?_
    · exact (nearestRank_mono (hgrid hk)).trans_eq h
    · exact hexact.ge.trans (nearestRank_mono ((value_exact r).trans_le hupper.le))
  · refine ⟨⟨k, d.exponent⟩, (hmem _).2 (.inl rfl), decide_eq_true ?_⟩
    refine Nat.le_antisymm ?_ ?_
    · exact (nearestRank_mono (hlower.trans_eq (value_exact r).symm)).trans hexact.le
    · exact h.ge.trans (nearestRank_mono (hgrid hk))

/-- What is found on a grid lies on it, and reads back. -/
theorem eq_of_onGrid? (h : onGrid? r g = some d) : nearestRank d = r ∧ d.exponent = g := by
  obtain ⟨k, hmem, -⟩ := exists_neighbours r g
  rw [onGrid?] at h
  refine ⟨by simpa using List.find?_some h, ?_⟩
  rcases (hmem d).1 (List.mem_of_find?_eq_some h) with rfl | rfl <;> rfl

/-! ### The search -/

theorem mem_gridExponents : g ∈ gridExponents ↔ -1074 ≤ g ∧ g ≤ 309 := by
  rw [gridExponents, List.mem_map]
  constructor
  · rintro ⟨i, hi, rfl⟩
    have hi := List.mem_range.1 hi
    omega
  · rintro ⟨hlow, hhigh⟩
    exact ⟨(309 - g).toNat, List.mem_range.2 (by omega), by omega⟩

theorem pairwise_gridExponents : gridExponents.Pairwise (· > ·) := by
  rw [gridExponents, List.pairwise_map]
  exact List.pairwise_lt_range.imp fun h ↦ by omega

/-- Ten to the power of 309 lies beyond all finite magnitudes. -/
theorem nearestRank_of_le_exponent (hd : d.digits ≠ 0) (h : 309 ≤ d.exponent) :
    nearestRank d = infinityRank := by
  have htop : nearestRank ⟨1, 309⟩ = infinityRank := by decide +kernel
  refine Nat.le_antisymm (nearestRank_le d) (htop.ge.trans (nearestRank_mono ?_))
  have hdigits : (1 : ℚ) ≤ d.digits := Nat.one_le_cast.2 (Nat.pos_of_ne_zero hd)
  have hpow : (10 : ℚ) ^ (309 : ℤ) ≤ 10 ^ d.exponent := zpow_le_zpow_right₀ (by norm_num) h
  rw [Decimal.value, Decimal.value, Nat.cast_one]
  exact mul_le_mul hdigits hpow (by positivity) (Nat.cast_nonneg _)

/-- A decimal without digits reads back as zero only. -/
theorem digits_ne_zero (hr : r ≠ 0) (h : nearestRank d = r) : d.digits ≠ 0 := by
  intro hzero
  have hvalue : d.value = magnitude 0 := by
    rw [Decimal.value, hzero, Nat.cast_zero, zero_mul, magnitude_zero]
  exact hr (h ▸ nearestRank_of_value (Nat.zero_le _) hvalue)

/-- The search ends on the coarsest grid that holds a decimal of the rank. -/
theorem onGrid?_shortest (hpos : r ≠ 0) (hr : r < infinityRank) :
    onGrid? r (shortest r).exponent = some (shortest r) ∧
      ∀ d, nearestRank d = r → d.exponent ≤ (shortest r).exponent := by
  have hfound : (gridExponents.findSome? (onGrid? r)).isSome := by
    rw [List.findSome?_isSome_iff]
    refine ⟨(exact r).exponent, mem_gridExponents.2 ?_, isSome_onGrid? hr (nearestRank_exact hr.le)⟩
    rw [exponent_exact]
    decide
  obtain ⟨found, hfound⟩ := Option.isSome_iff_exists.1 hfound
  have hshortest : shortest r = found := by rw [shortest, if_neg hpos, hfound, Option.getD_some]
  obtain ⟨coarser, g, finer, hgrids, hg, hnone⟩ := List.findSome?_eq_some_iff.1 hfound
  obtain ⟨-, rfl⟩ := eq_of_onGrid? hg
  rw [hshortest]
  refine ⟨hg, fun d hd ↦ ?_⟩
  by_contra! hlt
  have hhigh : d.exponent < 309 := by
    by_contra! h
    exact hr.ne (hd ▸ nearestRank_of_le_exponent (digits_ne_zero hpos hd) h)
  have hlow := mem_gridExponents.1 (hgrids ▸ List.mem_append_right _ List.mem_cons_self)
  have hmem : d.exponent ∈ coarser ++ found.exponent :: finer :=
    hgrids ▸ mem_gridExponents.2 ⟨by omega, by omega⟩
  -- a coarser grid was searched before
  have hsorted := pairwise_gridExponents
  rw [hgrids, List.pairwise_append, List.pairwise_cons] at hsorted
  rcases List.mem_append.1 hmem with hmem | hmem
  · have hsome := isSome_onGrid? hr hd
    rw [hnone _ hmem] at hsome
    exact Bool.false_ne_true hsome
  · rcases List.mem_cons.1 hmem with heq | hmem
    · exact hlt.ne' heq
    · exact absurd (hsorted.2.1.1 _ hmem) hlt.not_gt

/-- **The shortest decimal** has the rank, and no decimal of the rank lies on a coarser grid. -/
theorem shortest_spec (hpos : r ≠ 0) (hr : r < infinityRank) : nearestRank (shortest r) = r ∧
    ∀ d, nearestRank d = r → d.exponent ≤ (shortest r).exponent := by
  obtain ⟨hgrid, hcoarsest⟩ := onGrid?_shortest hpos hr
  exact ⟨(eq_of_onGrid? hgrid).1, hcoarsest⟩

/-- Two grids tell where the search ends: every point of a grid lies on all finer ones. -/
theorem shortest_eq_of_onGrid? (hpos : r ≠ 0) (hr : r < infinityRank) (hd : onGrid? r g = some d)
    (hnone : onGrid? r (g + 1) = none) : shortest r = d := by
  obtain ⟨hgrid, hcoarsest⟩ := onGrid?_shortest hpos hr
  obtain ⟨hrank, rfl⟩ := eq_of_onGrid? hd
  suffices hexponent : (shortest r).exponent = d.exponent by
    rw [hexponent, hd] at hgrid
    exact (Option.some.inj hgrid).symm
  refine Int.le_antisymm ?_ (hcoarsest d hrank)
  by_contra! hlt
  obtain ⟨k, hk⟩ := Int.eq_ofNat_of_zero_le (Int.sub_nonneg_of_le (Int.add_one_le_of_lt hlt))
  have hvalue : Decimal.value ⟨(shortest r).digits * 10 ^ k, d.exponent + 1⟩ =
      (shortest r).value := by
    have hexponent : k + (d.exponent + 1) = (shortest r).exponent := by omega
    rw [Decimal.value_mul_pow, hexponent]
  have hsome := isSome_onGrid? hr ((nearestRank_congr hvalue).trans (eq_of_onGrid? hgrid).1)
  rw [hnone] at hsome
  exact Bool.false_ne_true hsome

theorem shortest_zero : shortest 0 = ⟨0, 0⟩ := if_pos rfl

/-- The shortest decimal of a finite rank reads back. -/
theorem nearestRank_shortest (hr : r < infinityRank) : nearestRank (shortest r) = r := by
  by_cases hpos : r = 0
  · rw [hpos, shortest_zero]
    refine nearestRank_of_value (Nat.zero_le _) ?_
    rw [Decimal.value, Nat.cast_zero, zero_mul, magnitude_zero]
  · exact (shortest_spec hpos hr).1

/-- A shortest decimal has no zero at the end, which would put it on a coarser grid. -/
theorem digits_shortest_mod_ten (hpos : r ≠ 0) (hr : r < infinityRank) :
    (shortest r).digits % 10 ≠ 0 := by
  obtain ⟨hrank, hcoarsest⟩ := shortest_spec hpos hr
  intro hzero
  have hvalue : Decimal.value ⟨(shortest r).digits / 10, (1 : Nat) + (shortest r).exponent⟩ =
      (shortest r).value := by
    rw [← Decimal.value_mul_pow, Nat.pow_one, Nat.div_mul_cancel (Nat.dvd_of_mod_eq_zero hzero)]
  have hle := hcoarsest _ ((nearestRank_congr hvalue).trans hrank)
  exact absurd hle (by simp)

/-- **No decimal of the rank has fewer digits.** Otherwise a power of ten with as many digits as the
shortest decimal lies between the two, and has the rank, too, but it lies on a coarser grid. -/
theorem pow_le_digits (hpos : r ≠ 0) (hr : r < infinityRank) (hd : nearestRank d = r) {j : Nat}
    (hj : 10 ^ j ≤ (shortest r).digits) : 10 ^ j ≤ d.digits := by
  obtain ⟨hrank, hcoarsest⟩ := shortest_spec hpos hr
  by_contra! hlt
  have hbelow : d.value ≤ Decimal.value ⟨10 ^ j, (shortest r).exponent⟩ :=
    mul_le_mul (Nat.cast_le.2 hlt.le) (zpow_le_zpow_right₀ (by norm_num) (hcoarsest d hd))
      (by positivity) (Nat.cast_nonneg _)
  have habove : Decimal.value ⟨10 ^ j, (shortest r).exponent⟩ ≤ (shortest r).value :=
    mul_le_mul_of_nonneg_right (Nat.cast_le.2 hj) (by positivity)
  have hvalue : Decimal.value ⟨1, j + (shortest r).exponent⟩ =
      Decimal.value ⟨10 ^ j, (shortest r).exponent⟩ := by
    rw [← Decimal.value_mul_pow, Nat.one_mul]
  have hle := hcoarsest _
    ((nearestRank_congr hvalue).trans (nearestRank_of_between hd hrank hbelow habove))
  have hzero : j = 0 := by
    simp only at hle
    omega
  rw [hzero, Nat.pow_zero, Nat.lt_one_iff] at hlt
  exact digits_ne_zero hpos hd hlt

end Binary64

end LoxLexer
