import VirtualPeople.Proofs.Number.Operations
import Mathlib.Data.Rat.Floor
import Mathlib.Tactic.GCongr
import Mathlib.Tactic.NormNum

/-!
# The values of doubles

A finite double stands for its units over `2 ^ 1074`, those of a negative one taken from zero, and
doubles are ordered as their values are (`valueOf_mono`).
-/

namespace VirtualPeople

/-- The units of a double, those of a negative one taken from zero. -/
def signedUnits (x : Float) : Int := Rank.signed (isNegative x) (units (rankOf x))

/-- The number that a finite double stands for. -/
def valueOf (x : Float) : ℚ := signedUnits x / 2 ^ 1074

theorem units_zero : units 0 = 0 := rfl

theorem le_of_units_le {r s : Nat} (hr : r ≤ Format.double.infinity)
    (hs : s ≤ Format.double.infinity) (h : units r ≤ units s) : r ≤ s := by
  rw [← nearest_units hs]
  exact le_nearest (pow_pos Nat.two_pos 1074) hr (Nat.mul_le_mul_right _ h)

/-- A function that keeps zero and the order of ranks keeps the order of signed ranks. -/
theorem signed_map_mono {g : Nat → Nat} (hzero : g 0 = 0) {a b : Bool} {r s : Nat}
    (hup : r ≤ s → g r ≤ g s) (hdown : s ≤ r → g s ≤ g r)
    (h : Rank.signed a r ≤ Rank.signed b s) : Rank.signed a (g r) ≤ Rank.signed b (g s) := by
  cases a <;> cases b <;> simp only [Rank.signed] at h ⊢
  · exact Int.ofNat_le.2 (hup (Int.ofNat_le.1 h))
  · obtain rfl : r = 0 := by omega
    obtain rfl : s = 0 := by omega
    rw [hzero]
    exact le_refl _
  · omega
  · have := hdown (by omega)
    omega

theorem signedUnits_mono {x y : Float} (h : signedRank x ≤ signedRank y) :
    signedUnits x ≤ signedUnits y :=
  signed_map_mono units_zero units_mono units_mono h

theorem valueOf_mono {x y : Float} (h : x ≤ y) : valueOf x ≤ valueOf y := by
  have hle := signedUnits_mono ((double_le_iff x y).1 h).2.2
  unfold valueOf
  gcongr

theorem signedRank_le_of_signedUnits {x y : Float} (hx : isNumber x) (hy : isNumber y)
    (h : signedUnits x ≤ signedUnits y) : signedRank x ≤ signedRank y := by
  have hxrank : rankOf x ≤ Format.double.infinity := of_decide_eq_true hx
  have hyrank : rankOf y ≤ Format.double.infinity := of_decide_eq_true hy
  unfold signedUnits at h
  unfold signedRank
  rcases hxneg : isNegative x <;> rcases hyneg : isNegative y <;> rw [hxneg, hyneg] at h <;>
    simp only [Rank.signed] at h ⊢
  · exact Int.ofNat_le.2 (le_of_units_le hxrank hyrank (Int.ofNat_le.1 h))
  · have hx0 : rankOf x = 0 := Nat.eq_zero_of_not_pos fun hpos => by
      have := units_pos hpos
      omega
    have hy0 : rankOf y = 0 := Nat.eq_zero_of_not_pos fun hpos => by
      have := units_pos hpos
      omega
    omega
  · omega
  · have hle : rankOf y ≤ rankOf x := le_of_units_le hyrank hxrank (by omega)
    omega

theorem valueOf_le_iff {x y : Float} (hx : isNumber x) (hy : isNumber y) :
    valueOf x ≤ valueOf y ↔ x ≤ y := by
  refine ⟨fun h => (double_le_iff x y).2 ⟨hx, hy, ?_⟩, valueOf_mono⟩
  unfold valueOf at h
  rw [div_le_div_iff_of_pos_right (by positivity)] at h
  exact signedRank_le_of_signedUnits hx hy (Int.cast_le.1 h)

theorem valueOf_lt_iff {x y : Float} (hx : isNumber x) (hy : isNumber y) :
    valueOf x < valueOf y ↔ x < y := by
  rw [← not_le, valueOf_le_iff hy hx, double_le_iff, double_lt_iff]
  simp only [hx, hy, true_and, not_le]

/-- A number that is not negative is its units, for the negative zero has none. -/
theorem valueOf_of_not_neg {x : Float} (hx : isNumber x) (h : ¬ x < 0.0) :
    valueOf x = (units (rankOf x) : ℚ) / 2 ^ 1074 := by
  have hrank := signedRank_eq_rankOf hx h
  have hunits : signedUnits x = units (rankOf x) := by
    unfold signedRank at hrank
    unfold signedUnits
    rcases hn : isNegative x
    · rfl
    · rw [hn] at hrank
      simp only [Rank.signed] at hrank ⊢
      have hzero : rankOf x = 0 := by omega
      rw [hzero, units_zero]
      rfl
  rw [valueOf, hunits, Int.cast_natCast]

theorem valueOf_neg {x : Float} (h : x < 0.0) : valueOf x < 0 := by
  obtain ⟨-, hsign, hpos⟩ := double_lt_zero_iff.1 h
  have hunits : signedUnits x < 0 := by
    unfold signedUnits
    rw [hsign]
    exact Int.neg_neg_of_pos (Int.natCast_pos.2 (units_pos hpos))
  exact div_neg_of_neg_of_pos (Int.cast_lt_zero.2 hunits) (by positivity)

theorem valueOf_neg_iff {x : Float} (hx : isFinite x) : valueOf x < 0 ↔ x < 0.0 := by
  refine ⟨fun h => ?_, valueOf_neg⟩
  by_contra hneg
  rw [valueOf_of_not_neg (isNumber_of_isFinite hx) hneg] at h
  exact absurd h (not_lt.2 (by positivity))

theorem valueOf_one : valueOf 1.0 = 1 := by
  have hrank : rankOf 1.0 = 1022 * 2 ^ 52 + 2 ^ 52 := rfl
  have hneg : ¬ (1.0 : Float) < 0.0 := by decide
  rw [valueOf_of_not_neg rfl hneg, hrank, units_eq (by omega) (.inr (Nat.le_refl _)), ← pow_add,
    Nat.cast_pow, Nat.cast_ofNat]
  exact div_self (pow_ne_zero _ two_ne_zero)

theorem valueOf_neg_one : valueOf (-1.0) = -1 := by
  have hunits : signedUnits (-1.0) = -signedUnits 1.0 := by
    unfold signedUnits
    rw [show isNegative (-1.0) = true from rfl, show isNegative 1.0 = false from rfl,
      show rankOf (-1.0) = rankOf 1.0 from rfl]
    rfl
  have hone := valueOf_one
  unfold valueOf at hone ⊢
  rw [hunits, Int.cast_neg, neg_div, hone]

end VirtualPeople
