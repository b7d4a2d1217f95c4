import VirtualPeople.Multiplicity
import VirtualPeople.Proofs.Number.Order
import VirtualPeople.Proofs.Number.Units

/-!
# Rounding by a seed

`wholeAndFraction` divides the units of a number by `2 ^ 1074`, and a larger number has more of them
(`units_mono`). For one seed, it is thus never rounded to a smaller one (`roundBySeed_mono`).
-/

namespace VirtualPeople

/-- The whole part and the fraction are the quotient and the rest of the units, so divided. -/
theorem wholeAndFraction_eq {rank : Nat} (h : rank < Format.double.infinity) :
    wholeAndFraction rank = (min (2 ^ 64 - 1) (units rank / 2 ^ 1074),
      units rank % 2 ^ 1074 * 2 ^ 64 / 2 ^ 1074) := by
  obtain ⟨m, e, hv, -, hu, hm, -⟩ := exists_units rank
  rw [wholeAndFraction, if_neg (by omega), if_neg (by omega), hv, hu]
  rcases Nat.lt_or_ge e 1074 with he | he
  · obtain ⟨d, hd⟩ : ∃ d, 1074 = d + 1 + e := ⟨1074 - e - 1, by omega⟩
    have hq : (e : Int) - 1074 = .negSucc d := by omega
    have hpow : 2 ^ 1074 = 2 ^ (d + 1) * 2 ^ e := by rw [← pow_add, ← hd]
    have h1 : m * 2 ^ e / 2 ^ 1074 = m / 2 ^ (d + 1) := by
      rw [hpow, Nat.mul_div_mul_right _ _ (Nat.two_pow_pos e)]
    have h2 : m * 2 ^ e % 2 ^ 1074 * 2 ^ 64 / 2 ^ 1074
        = m % 2 ^ (d + 1) * 2 ^ 64 / 2 ^ (d + 1) := by
      rw [hpow, Nat.mul_mod_mul_right, Nat.mul_right_comm,
        Nat.mul_div_mul_right _ _ (Nat.two_pow_pos e)]
    have h3 : m / 2 ^ (d + 1) ≤ m := Nat.div_le_self _ _
    rw [hq, h1, h2]
    simp only [Nat.shiftLeft_eq, Nat.shiftRight_eq_div_pow, one_mul]
    rw [Nat.min_eq_right (by omega)]
  · obtain ⟨k, rfl⟩ : ∃ k, e = 1074 + k := ⟨e - 1074, by omega⟩
    have hq : ((1074 + k : Nat) : Int) - 1074 = .ofNat k := by
      simp
    have hpow : m * 2 ^ (1074 + k) = m * 2 ^ k * 2 ^ 1074 := by
      rw [pow_add, Nat.mul_comm (2 ^ 1074), Nat.mul_assoc]
    rw [hq, hpow, Nat.mul_div_cancel _ (Nat.two_pow_pos 1074), Nat.mul_mod_left, Nat.zero_mul,
      Nat.zero_div]
    simp only [Nat.shiftLeft_eq, one_mul]

/-- Numbers from `2 ^ 53` on have no fraction. -/
theorem units_mod {rank : Nat} (h : 2 ^ 53 ≤ units rank / 2 ^ 1074) :
    units rank % 2 ^ 1074 = 0 := by
  obtain ⟨m, e, -, -, hu, hm, -⟩ := exists_units rank
  rcases Nat.lt_or_ge e 1074 with he | he
  · have hle : units rank ≤ m * 2 ^ 1074 := by
      rw [hu]
      exact Nat.mul_le_mul_left m (pow_le_pow_right₀ (by omega) he.le)
    have : units rank / 2 ^ 1074 ≤ m :=
      Nat.div_le_of_le_mul (hle.trans_eq (Nat.mul_comm _ _))
    omega
  · rw [hu, ← Nat.add_sub_cancel' he, pow_add, Nat.mul_left_comm]
    exact Nat.mul_mod_right _ _

theorem wholeAndFraction_infinity :
    wholeAndFraction Format.double.infinity = (2 ^ 64 - 1, 0) := rfl

/-- Of two numbers the smaller has the smaller whole part, or the same and no larger fraction. -/
theorem wholeAndFraction_mono {r s : Nat} (h : r ≤ s) (hs : s ≤ Format.double.infinity) :
    (wholeAndFraction r).1 < (wholeAndFraction s).1 ∨
      (wholeAndFraction r).1 = (wholeAndFraction s).1 ∧
        (wholeAndFraction r).2 ≤ (wholeAndFraction s).2 := by
  rcases Nat.lt_or_ge r Format.double.infinity with hr | hr
  · have hq : units r / 2 ^ 1074 ≤ units s / 2 ^ 1074 := Nat.div_le_div_right (units_mono h)
    rw [wholeAndFraction_eq hr]
    rcases Nat.lt_or_ge (units r / 2 ^ 1074) (2 ^ 64 - 1) with hw | hw
    · rcases Nat.lt_or_ge s Format.double.infinity with hs | hs
      · rw [wholeAndFraction_eq hs]
        rcases hq.lt_or_eq with hlt | heq
        · exact .inl (by simp only; omega)
        · refine .inr ⟨by rw [heq], Nat.div_le_div_right (Nat.mul_le_mul_right _ ?_)⟩
          have hr := Nat.div_add_mod (units r) (2 ^ 1074)
          have hs := Nat.div_add_mod (units s) (2 ^ 1074)
          rw [heq] at hr
          have := units_mono h
          omega
      · obtain rfl : s = Format.double.infinity := by omega
        exact .inl (by simp only [wholeAndFraction_infinity]; omega)
    · have hs : (wholeAndFraction s).1 = 2 ^ 64 - 1 := by
        rcases Nat.lt_or_ge s Format.double.infinity with hs | hs
        · rw [wholeAndFraction_eq hs]
          exact Nat.min_eq_left (hw.trans hq)
        · obtain rfl : s = Format.double.infinity := by omega
          rw [wholeAndFraction_infinity]
      refine .inr ⟨by rw [hs]; exact Nat.min_eq_left hw, ?_⟩
      rw [units_mod (by omega), Nat.zero_mul, Nat.zero_div]
      exact Nat.zero_le _
  · obtain rfl : r = s := by omega
    exact .inr ⟨rfl, le_rfl⟩

/-- A seed never rounds the larger of two numbers to less. -/
theorem roundBySeed_mono {x y : Float} (seed : UInt64) (h : rankOf x ≤ rankOf y)
    (hy : isNumber y) : roundBySeed x seed ≤ roundBySeed y seed := by
  have hmono := wholeAndFraction_mono h (of_decide_eq_true hy)
  unfold roundBySeed
  simp only
  split_ifs <;> omega

end VirtualPeople
