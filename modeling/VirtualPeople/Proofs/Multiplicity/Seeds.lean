import VirtualPeople.Proofs.Multiplicity.Rounding
import VirtualPeople.Proofs.Number.Exact
import Mathlib.Algebra.BigOperators.Field
import Mathlib.Algebra.Order.Floor.Semifield
import Mathlib.Data.FinEnum

/-!
# All seeds

The seeds below the fraction of a number in units of `2 ^ -64`, rounded down, round the number up,
all others down (`IsUnits.roundBySeed_eq`), so on average the number loses less than one such unit
(`IsUnits.mean_bounds`). Words and doubles compute the same without a rounding
(`IsUnits.roundInWords_eq`): the whole part, the fraction and the fraction scaled by `2 ^ 64` are
doubles, and casting the last to a word is what rounds it down. All this is
`roundBySeed_expectation`.
-/

namespace VirtualPeople

open Format (double)

/-- The whole part of a number that is not negative. -/
def wholeOf (x : Float) : ℕ := ⌊valueOf x⌋₊

/-- How many seeds round a number up: its fraction in units of `2 ^ -64`, rounded down. -/
def seedsUp (x : Float) : ℕ := ⌊(valueOf x - wholeOf x) * 2 ^ 64⌋₊

/-- The fraction of a number, as a double that `2 ^ 64` scales. -/
def scaledFraction (x whole : Float) : Float :=
  (x - whole) * UInt64.toFloat 18446744073709551615

/-- A number rounded by a seed, as words and doubles compute it. -/
def roundInWords (x whole : Float) (seed : UInt64) : UInt64 :=
  if seed < (scaledFraction x whole).toUInt64 then whole.toUInt64 + 1 else whole.toUInt64

/-- A quotient without its whole part is the rest over the divisor. -/
theorem div_sub_div {u d : ℕ} (hd : 0 < d) :
    (u : ℚ) / d - (u / d : ℕ) = ((u % d : ℕ) : ℚ) / d := by
  have hne : (d : ℚ) ≠ 0 := Nat.cast_ne_zero.2 hd.ne'
  have hsum : (u : ℚ) = d * (u / d : ℕ) + (u % d : ℕ) := by
    exact_mod_cast (Nat.div_add_mod u d).symm
  rw [sub_eq_iff_eq_add, div_add' _ _ _ hne, div_left_inj' hne, hsum]
  ring

namespace IsUnits

variable {x whole : Float} {u : ℕ}

theorem wholeOf_eq (h : IsUnits x u) : wholeOf x = u / 2 ^ 1074 := by
  have hfloor := Nat.floor_div_eq_div (K := ℚ) u (2 ^ 1074)
  rwa [Nat.cast_pow, Nat.cast_ofNat, ← h.valueOf_eq] at hfloor

theorem fraction_eq (h : IsUnits x u) :
    valueOf x - wholeOf x = ((u % 2 ^ 1074 : ℕ) : ℚ) / 2 ^ 1074 := by
  have hrest := div_sub_div (u := u) (pow_pos Nat.two_pos 1074)
  rwa [Nat.cast_pow, Nat.cast_ofNat, ← h.valueOf_eq, ← h.wholeOf_eq] at hrest

theorem seedsUp_eq (h : IsUnits x u) : seedsUp x = u % 2 ^ 1074 * 2 ^ 64 / 2 ^ 1074 := by
  have hfloor := Nat.floor_div_eq_div (K := ℚ) (u % 2 ^ 1074 * 2 ^ 64) (2 ^ 1074)
  rwa [Nat.cast_mul, Nat.cast_pow, Nat.cast_pow, Nat.cast_ofNat, mul_div_right_comm,
    ← h.fraction_eq] at hfloor

/-- Not all seeds round a number up. -/
theorem seedsUp_lt (h : IsUnits x u) : seedsUp x < 2 ^ 64 := by
  have hrest : u % 2 ^ 1074 < 2 ^ 1074 := Nat.mod_lt u (pow_pos Nat.two_pos 1074)
  rw [h.seedsUp_eq, Nat.div_lt_iff_lt_mul (pow_pos Nat.two_pos 1074), Nat.mul_comm]
  exact Nat.mul_lt_mul_of_pos_left hrest (Nat.two_pow_pos 64)

theorem roundBySeed_eq (h : IsUnits x u) (hwhole : wholeOf x < 2 ^ 64) (seed : UInt64) :
    roundBySeed x seed = if seed.toNat < seedsUp x then wholeOf x + 1 else wholeOf x := by
  have hmin : min (2 ^ 64 - 1) (wholeOf x) = wholeOf x := by omega
  unfold roundBySeed
  rw [wholeAndFraction_eq h.rank_lt, h.units_eq, ← h.seedsUp_eq, ← h.wholeOf_eq, hmin]

end IsUnits

theorem card_seeds_below {k : ℕ} (hk : k ≤ 2 ^ 64) :
    (Finset.univ.filter fun seed : UInt64 => seed.toNat < k).card = k := by
  conv_rhs => rw [← Finset.card_range k]
  refine Finset.card_nbij' UInt64.toNat UInt64.ofNat ?_ ?_ ?_ ?_
  · intro seed hseed
    exact Finset.mem_coe.2 (Finset.mem_range.2 (Finset.mem_filter.1 hseed).2)
  · intro n hn
    have hlt := Finset.mem_range.1 hn
    refine Finset.mem_coe.2 (Finset.mem_filter.2 ⟨Finset.mem_univ _, ?_⟩)
    rwa [UInt64.toNat_ofNat_of_lt' (hlt.trans_le hk)]
  · intro seed _
    exact UInt64.ofNat_toNat
  · intro n hn
    exact UInt64.toNat_ofNat_of_lt' ((Finset.mem_range.1 hn).trans_le hk)

theorem card_seeds : Fintype.card UInt64 = 2 ^ 64 := by
  rw [← FinEnum.card_eq_fintypeCard, FinEnum.card_UInt64]

namespace IsUnits

variable {x whole : Float} {u : ℕ}

theorem card_seedsUp (h : IsUnits x u) (hwhole : wholeOf x < 2 ^ 64) :
    (Finset.univ.filter fun seed : UInt64 => roundBySeed x seed = wholeOf x + 1).card =
      seedsUp x := by
  rw [← card_seeds_below h.seedsUp_lt.le]
  refine congrArg Finset.card (Finset.filter_congr fun seed _ => ?_)
  rw [h.roundBySeed_eq hwhole]
  split_ifs with hup <;> simp [hup]

theorem sum_roundBySeed (h : IsUnits x u) (hwhole : wholeOf x < 2 ^ 64) :
    ∑ seed : UInt64, roundBySeed x seed = 2 ^ 64 * wholeOf x + seedsUp x :=
  calc ∑ seed : UInt64, roundBySeed x seed
      = ∑ seed : UInt64, (wholeOf x + if seed.toNat < seedsUp x then 1 else 0) := by
        refine Finset.sum_congr rfl fun seed _ => ?_
        rw [h.roundBySeed_eq hwhole]
        split_ifs <;> rfl
    _ = 2 ^ 64 * wholeOf x + seedsUp x := by
        rw [Finset.sum_add_distrib, Finset.sum_const, Finset.card_univ, card_seeds, nsmul_eq_mul,
          Nat.cast_id, ← Finset.card_filter, card_seeds_below h.seedsUp_lt.le]

/-- The mean over all seeds is the number without what its fraction is rounded down by. -/
theorem mean_bounds (h : IsUnits x u) (hwhole : wholeOf x < 2 ^ 64) :
    valueOf x - 1 / 2 ^ 64 < (∑ seed : UInt64, roundBySeed x seed : ℕ) / (2 ^ 64 : ℚ) ∧
      (∑ seed : UInt64, roundBySeed x seed : ℕ) / (2 ^ 64 : ℚ) ≤ valueOf x := by
  have hfraction : 0 ≤ (valueOf x - wholeOf x) * 2 ^ 64 := by
    rw [h.fraction_eq]
    positivity
  have hle : (seedsUp x : ℚ) ≤ (valueOf x - wholeOf x) * 2 ^ 64 := Nat.floor_le hfraction
  have hlt : (valueOf x - wholeOf x) * 2 ^ 64 < seedsUp x + 1 := Nat.lt_floor_add_one _
  rw [h.sum_roundBySeed hwhole]
  push_cast
  constructor
  · rw [lt_div_iff₀ (by positivity)]
    linarith
  · rw [div_le_iff₀ (by positivity)]
    linarith

end IsUnits

/-- The largest word is no double; the nearest one is `2 ^ 64`. -/
theorem isUnits_scale : IsUnits (UInt64.toFloat 18446744073709551615) (2 ^ 1138) := by
  have hrank : double.nearest (18446744073709551615 : UInt64).toNat 1 = 1086 * 2 ^ 52 + 2 ^ 52 := by
    decide +kernel
  obtain ⟨hsign, hfound⟩ := double_ofNat 18446744073709551615
  have hunits := IsUnits.of_sign (hfound.trans hrank) (by decide) (.inl hsign)
  rwa [units_eq (by decide) (.inr le_rfl), ← pow_add, show 52 + 1086 = 1138 from rfl] at hunits

namespace IsUnits

variable {x whole : Float} {u : ℕ}

theorem fraction (h : IsUnits x u) (hwhole : IsUnits whole (u / 2 ^ 1074 * 2 ^ 1074)) :
    IsUnits (x - whole) (u % 2 ^ 1074) := by
  have hfits := h.fits_rest (Nat.zero_le 1024)
  rw [pow_zero, Nat.mul_one, Nat.mod_eq_sub_div_mul] at hfits
  rw [Nat.mod_eq_sub_div_mul]
  exact h.sub hwhole (Nat.div_mul_le_self _ _) hfits

theorem scaled (h : IsUnits x u) (hwhole : IsUnits whole (u / 2 ^ 1074 * 2 ^ 1074)) :
    IsUnits (scaledFraction x whole) (u % 2 ^ 1074 * 2 ^ 64) :=
  (h.fraction hwhole).mul isUnits_scale (pow_le_pow_right₀ one_le_two (by decide))
    (h.fits_rest (by decide)) (by rw [Nat.mul_assoc, ← pow_add])

theorem toNat_scaledFraction (h : IsUnits x u)
    (hwhole : IsUnits whole (u / 2 ^ 1074 * 2 ^ 1074)) :
    (scaledFraction x whole).toUInt64.toNat = seedsUp x := by
  have hlt := h.seedsUp_lt
  rw [(h.scaled hwhole).toNat_toUInt64, ← h.seedsUp_eq]
  omega

theorem toNat_whole (h : IsUnits x u) (hwhole : IsUnits whole (u / 2 ^ 1074 * 2 ^ 1074))
    (hlt : wholeOf x < 2 ^ 64) : whole.toUInt64.toNat = wholeOf x := by
  rw [hwhole.toNat_toUInt64, Nat.mul_div_cancel _ (pow_pos Nat.two_pos 1074), ← h.wholeOf_eq]
  omega

/-- Words and doubles compute what rounding by a seed gives. -/
theorem roundInWords_eq (h : IsUnits x u) (hwhole : IsUnits whole (u / 2 ^ 1074 * 2 ^ 1074))
    (hlt : wholeOf x + 1 < 2 ^ 64) (seed : UInt64) :
    (roundInWords x whole seed).toNat = roundBySeed x seed := by
  have htoNat := h.toNat_whole hwhole (by omega)
  have hup : seed < (scaledFraction x whole).toUInt64 ↔ seed.toNat < seedsUp x := by
    rw [UInt64.lt_iff_toNat_lt, h.toNat_scaledFraction hwhole]
  rw [h.roundBySeed_eq (by omega), roundInWords]
  simp only [hup]
  split_ifs
  · rw [UInt64.toNat_add, htoNat]
    exact Nat.mod_eq_of_lt hlt
  · exact htoNat

end IsUnits

/-- Rounding by a seed keeps a number below `2 ^ 63` on average, but for less than `2 ^ -64`: just
as many seeds round it up as its fraction has units of `2 ^ -64`. Whichever double stands for the
whole part (and one does), words and doubles compute the same: the difference and the product are
exact, and neither a cast nor the sum leaves the 64-bit words. -/
theorem roundBySeed_expectation {x : Float} (hx : isFinite x) (hle : 0 ≤ valueOf x)
    (hlt : valueOf x < 2 ^ 63) :
    (∀ seed, roundBySeed x seed = if seed.toNat < seedsUp x then wholeOf x + 1 else wholeOf x) ∧
    (Finset.univ.filter fun seed : UInt64 => roundBySeed x seed = wholeOf x + 1).card =
      seedsUp x ∧
    valueOf x - 1 / 2 ^ 64 < (∑ seed : UInt64, roundBySeed x seed : ℕ) / (2 ^ 64 : ℚ) ∧
    (∑ seed : UInt64, roundBySeed x seed : ℕ) / (2 ^ 64 : ℚ) ≤ valueOf x ∧
    wholeOf x + 1 < 2 ^ 64 ∧ seedsUp x < 2 ^ 64 ∧
    (∃ whole, isFinite whole ∧ valueOf whole = wholeOf x) ∧
    ∀ whole, isFinite whole → valueOf whole = wholeOf x →
      isFinite (x - whole) ∧ valueOf (x - whole) = valueOf x - wholeOf x ∧
      isFinite (scaledFraction x whole) ∧
      valueOf (scaledFraction x whole) = (valueOf x - wholeOf x) * 2 ^ 64 ∧
      (scaledFraction x whole).toUInt64.toNat = seedsUp x ∧
      whole.toUInt64.toNat = wholeOf x ∧
      ∀ seed, (roundInWords x whole seed).toNat = roundBySeed x seed := by
  obtain ⟨u, h⟩ : ∃ u, IsUnits x u :=
    ⟨_, hx, mt (valueOf_neg_iff hx).2 hle.not_gt, rfl⟩
  have hwhole : wholeOf x < 2 ^ 63 := by
    rw [wholeOf, Nat.floor_lt hle]
    exact_mod_cast hlt
  have hbelow : wholeOf x < 2 ^ 64 := by omega
  obtain ⟨hmore, hless⟩ := h.mean_bounds hbelow
  refine ⟨h.roundBySeed_eq hbelow, h.card_seedsUp hbelow, hmore, hless, by omega, h.seedsUp_lt,
    ?_, fun whole hfinite hvalue => ?_⟩
  · obtain ⟨whole, hunits⟩ := IsUnits.exists_double h.fits_whole
    refine ⟨whole, hunits.isFinite, ?_⟩
    rw [hunits.valueOf_natCast, h.wholeOf_eq]
  · have hunits : IsUnits whole (u / 2 ^ 1074 * 2 ^ 1074) := by
      rw [← h.wholeOf_eq]
      exact isUnits_of_natCast hfinite hvalue
    have hfraction := h.fraction hunits
    have hscaled := h.scaled hunits
    refine ⟨hfraction.isFinite, ?_, hscaled.isFinite, ?_, h.toNat_scaledFraction hunits,
      h.toNat_whole hunits hbelow, h.roundInWords_eq hunits (by omega)⟩
    · rw [hfraction.valueOf_eq, h.fraction_eq]
    · rw [hscaled.valueOf_eq, h.fraction_eq, Nat.cast_mul, Nat.cast_pow, Nat.cast_ofNat]
      exact mul_div_right_comm _ _ _

/-- The largest double below two. -/
def belowTwo : Float := 1.9999999999999998

theorem isUnits_belowTwo : IsUnits belowTwo ((2 ^ 53 - 1) * 2 ^ 1022) := by
  have hrank : rankOf belowTwo = 1022 * 2 ^ 52 + (2 ^ 53 - 1) := by decide +kernel
  rw [← units_eq (by decide) (.inr (by decide))]
  exact .of_sign hrank (by decide) (.inl (by decide +kernel))

theorem roundBySeed_expectation_belowTwo :
    isFinite belowTwo ∧ valueOf belowTwo = 2 - 1 / 2 ^ 52 ∧ wholeOf belowTwo = 1 ∧
    seedsUp belowTwo = 2 ^ 64 - 2 ^ 12 ∧
    (Finset.univ.filter fun seed : UInt64 => roundBySeed belowTwo seed = 2).card =
      2 ^ 64 - 2 ^ 12 ∧
    valueOf belowTwo - 1 / 2 ^ 64 <
      (∑ seed : UInt64, roundBySeed belowTwo seed : ℕ) / (2 ^ 64 : ℚ) := by
  have hunits := isUnits_belowTwo
  have hvalue : valueOf belowTwo = 2 - 1 / 2 ^ 52 := by
    have hpow : (2 : ℚ) ^ 1074 = 2 ^ 52 * 2 ^ 1022 := by rw [← pow_add]
    rw [hunits.valueOf_eq, hpow, Nat.cast_mul, Nat.cast_pow, Nat.cast_ofNat,
      mul_div_mul_right _ _ (pow_ne_zero _ two_ne_zero)]
    norm_num
  have hwhole : wholeOf belowTwo = 1 := by
    rw [hunits.wholeOf_eq]
    decide +kernel
  have hup : seedsUp belowTwo = 2 ^ 64 - 2 ^ 12 := by
    rw [hunits.seedsUp_eq]
    decide +kernel
  obtain ⟨-, hcard, hmore, -⟩ := roundBySeed_expectation hunits.isFinite
    (by rw [hvalue]; norm_num) (by rw [hvalue]; norm_num)
  rw [hwhole, hup] at hcard
  exact ⟨hunits.isFinite, hvalue, hwhole, hup, hcard, hmore⟩

end VirtualPeople
