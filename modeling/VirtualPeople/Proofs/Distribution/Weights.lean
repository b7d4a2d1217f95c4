import VirtualPeople.Proofs.Distribution.Picking
import VirtualPeople.Proofs.Number.Operations

/-!
# Variates and accepted weights

A fingerprint is at most `2 ^ 64` once it is rounded to a double, so a uniform variate is between 0
and 1 (`uniform_mem`), and its negative logarithm is not negative (`zero_le_exponentialBy`). A
distribution is built from weights that are zero or positive, and finite: an infinite weight, or
one that is no number, would stay in the sum, which is near one. Dividing by the sum keeps the
zeros and their signs and leaves every positive weight positive and finite (`weight_scaled`).
-/

namespace VirtualPeople

open Format (double)

theorem rankOf_fingerprint_le (s : String) :
    rankOf (fingerprint s).toFloat ≤ rankOf 18446744073709551616.0 := by
  have hrank : rankOf 18446744073709551616.0 = 1086 * 2 ^ 52 + 2 ^ 52 := rfl
  have hunits : units (rankOf 18446744073709551616.0) = 2 ^ 64 * 2 ^ 1074 := by
    rw [hrank, units_eq (by decide) (.inr le_rfl), ← pow_add, ← pow_add]
  rw [(double_ofNat _).2]
  refine nearest_le Nat.one_pos ?_
  rw [hunits, Nat.mul_one]
  exact Nat.mul_le_mul_right _ (fingerprint s).toNat_lt.le

/-- A uniform variate is between 0 and 1. -/
theorem uniform_mem (s : String) : 0.0 ≤ uniform s ∧ uniform s ≤ 1.0 := by
  have hle := rankOf_fingerprint_le s
  have hfinite : isFinite (fingerprint s).toFloat := decide_eq_true (hle.trans_lt (by decide))
  have hsign := (double_div (y := 18446744073709551616.0) hfinite (by decide) (by decide)).1
  have hrank := rankOf_div_le (y := 18446744073709551616.0) hfinite (by decide) (by decide) hle
  rw [(double_ofNat _).1] at hsign
  have hpositive : isNegative (uniform s) = false := hsign
  have hnumber : isNumber (uniform s) := decide_eq_true (hrank.trans (by decide))
  refine ⟨zero_le_double_iff.2 ⟨hnumber, .inl hpositive⟩, (double_le_iff _ _).2 ⟨hnumber, rfl, ?_⟩⟩
  unfold signedRank
  rw [hpositive]
  exact Int.ofNat_le.2 hrank

/-- A variate is not negative if the logarithm is not positive up to one. -/
theorem zero_le_exponentialBy {ln : Float → Float}
    (hln : ∀ u, 0.0 ≤ u → u ≤ 1.0 → ln u ≤ 0.0) (s : String) : 0.0 ≤ exponentialBy ln s := by
  obtain ⟨hzero, hone⟩ := uniform_mem s
  obtain ⟨hnumber, hsign⟩ := double_le_zero_iff.1 (hln _ hzero hone)
  obtain ⟨hneg, hrank⟩ := double_neg hnumber
  rw [exponentialBy, zero_le_double_iff, isNumber, hneg, hrank]
  exact ⟨hnumber, hsign.imp_left fun h => by rw [h]; rfl⟩

/-- A zero of either sign. -/
def IsZero (x : Float) : Prop := rankOf x = 0

namespace Distribution

/-- A sum of doubles that are not negative is none either, and it is not below any of them. -/
theorem sum_grows : ∀ (choices : List Choice) (sum : Float), ¬ sum < 0.0 →
    (∀ c ∈ choices, ¬ c.weight < 0.0) →
    ¬ choices.foldl (fun sum c => sum + c.weight) sum < 0.0 ∧
      min double.infinity (rankOf sum) ≤
        rankOf (choices.foldl (fun sum c => sum + c.weight) sum) ∧
      ∀ c ∈ choices, min double.infinity (rankOf c.weight) ≤
        rankOf (choices.foldl (fun sum c => sum + c.weight) sum)
  | [], sum, hsum, _ => ⟨hsum, min_le_right _ _, nofun⟩
  | c :: rest, sum, hsum, hchoices => by
    obtain ⟨hc, hrest⟩ := List.forall_mem_cons.1 hchoices
    obtain ⟨hadd, hgrows, hgrows'⟩ := double_add_grows hsum hc
    obtain ⟨htotal, hle, hmem⟩ := sum_grows rest (sum + c.weight) hadd hrest
    have hstep {r : Nat} (h : min double.infinity r ≤ rankOf (sum + c.weight)) :
        min double.infinity r ≤
          rankOf (rest.foldl (fun sum c => sum + c.weight) (sum + c.weight)) :=
      (le_min (min_le_left _ _) h).trans hle
    exact ⟨htotal, hstep hgrows, List.forall_mem_cons.2 ⟨hstep hgrows', hmem⟩⟩

/-- The sum of the weights of a distribution is positive and below two. -/
theorem sum_bounds {sum : Float} (h : isNearOne sum) :
    isNegative sum = false ∧ 0 < rankOf sum ∧ rankOf sum < rankOf 2.0 := by
  obtain ⟨hlow, hhigh⟩ := Bool.and_eq_true_iff.1 h
  obtain ⟨-, -, hle⟩ := (double_le_iff _ _).1 (of_decide_eq_true hlow)
  obtain ⟨-, -, hle'⟩ := (double_le_iff _ _).1 (of_decide_eq_true hhigh)
  have hpos : 0 < signedRank sum := lt_of_lt_of_le (by decide) hle
  have hlt : signedRank sum < rankOf 2.0 := lt_of_le_of_lt hle' (by decide)
  unfold signedRank at hpos hlt
  rcases hsign : isNegative sum <;> rw [hsign] at hpos hlt <;> simp only [Rank.signed] at hpos hlt
  · exact ⟨rfl, by omega, by omega⟩
  · omega

/-- A weight that a distribution accepts, and one that it keeps: finite, and zero or positive. -/
def IsWeight (w : Float) : Prop := IsZero w ∨ 0.0 < w ∧ isFinite w

variable {choices : List Choice} {d : Distribution}

theorem isWeight_of_accepted (h : ofChoices choices = .ok d) {c : Choice} (hc : c ∈ choices) :
    IsWeight c.weight ∧ rankOf c.weight ≤ rankOf (total choices) := by
  obtain ⟨hnonneg, hnear, -⟩ := ofChoices_eq_ok h
  obtain ⟨-, -, hlt⟩ := sum_bounds hnear
  have hzero : ¬ (0.0 : Float) < 0.0 := by decide
  have hgrows := (sum_grows choices 0.0 hzero hnonneg).2.2 c hc
  have htwo : rankOf 2.0 < double.infinity := by decide
  have hle : rankOf c.weight ≤ rankOf (total choices) := by
    rcases min_le_iff.1 hgrows with hinf | hle
    · exact absurd (hinf.trans_lt (hlt.trans htwo)) (lt_irrefl _)
    · exact hle
  have hfinite : rankOf c.weight < double.infinity := hle.trans_lt (hlt.trans htwo)
  refine ⟨?_, hle⟩
  rcases Nat.eq_zero_or_pos (rankOf c.weight) with hz | hpos
  · exact .inl hz
  · rcases not_lt_zero (hnonneg c hc) with hsign | hz | hnan
    · exact .inr ⟨zero_lt_double_iff.2 ⟨decide_eq_true hfinite.le, hsign, hpos⟩,
        decide_eq_true hfinite⟩
    · exact .inl hz
    · exact absurd (hnan.trans hfinite) (lt_irrefl _)

/-- Dividing by the sum keeps what is positive and what is not. -/
theorem weight_scaled (h : ofChoices choices = .ok d) {c : Choice} (hc : c ∈ choices) :
    IsWeight (scaled (total choices) c).weight ∧
      (0.0 < (scaled (total choices) c).weight ↔ 0.0 < c.weight) := by
  obtain ⟨hweight, hle⟩ := isWeight_of_accepted h hc
  obtain ⟨hpositive, hpos, hlt⟩ := sum_bounds (ofChoices_eq_ok h).2.1
  have hsum : isFinite (total choices) := decide_eq_true (hlt.trans (by decide))
  rcases hweight with hzero | ⟨hw, hfinite⟩
  · have hfinite : isFinite c.weight := by
      unfold isFinite
      rw [hzero]
      rfl
    have hrank : rankOf (c.weight / total choices) = 0 := by
      rw [(double_div hfinite hpos hsum).2, hzero]
      rfl
    refine ⟨.inl hrank, ?_⟩
    rw [zero_lt_double_iff, zero_lt_double_iff, scaled, hrank, hzero]
    simp
  · obtain ⟨-, hsign, hwpos⟩ := zero_lt_double_iff.1 hw
    have hrank : rankOf (c.weight / total choices) < double.infinity :=
      (rankOf_div_le hfinite hpos hsum hle).trans_lt (by decide)
    have hscaled : 0.0 < (scaled (total choices) c).weight := by
      refine zero_lt_double_iff.2 ⟨decide_eq_true hrank.le, ?_,
        rankOf_div_pos hfinite hwpos hpos hlt⟩
      rw [scaled, (double_div hfinite hpos hsum).1, hsign, hpositive]
      rfl
    exact ⟨.inr ⟨hscaled, decide_eq_true hrank⟩, iff_of_true hscaled hw⟩

theorem isWeight_of_mem (h : ofChoices choices = .ok d) {c : Choice} (hc : c ∈ d.toList) :
    IsWeight c.weight := by
  rw [(ofChoices_eq_ok h).2.2] at hc
  obtain ⟨accepted, hmem, rfl⟩ := List.mem_map.1 hc
  exact (weight_scaled h hmem).1

end Distribution

end VirtualPeople
