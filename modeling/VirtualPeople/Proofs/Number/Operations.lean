import VirtualPeople.Proofs.Number.Arithmetic

/-!
# Operations on doubles

What the sum, the quotient and the negation of doubles are by sign and rank, the two that make up a
double (`double_ext`). Sums of doubles that are not negative only grow (`double_add_grows`),
infinity and what is no number included. A quotient by a larger number is at most one
(`rankOf_div_le`), and one by a number below two is not zero (`rankOf_div_pos`). A larger divisor
gives no larger quotient (`double_div_anti`). Divided by zero, a number goes to infinity with the
sign of the zero (`double_div_zero`).
-/

namespace VirtualPeople

open Format (double)
open Rank (Packs Reads)

/-- What the sign and the rank of a packed double are. -/
theorem sign_and_rank {x : Float} {u : Float.Model.UnpackedFloat} {negative : Bool} {rank : Nat}
    (hx : x.toModel = .pack u) (h : Packs u negative rank) (hrank : rank < 2 ^ 63) :
    isNegative x = negative ∧ rankOf x = rank := by
  have hbits : x.toBits.toNat = Rank.signBit negative + rank := by
    change x.toModel.toBits.toNat = _
    rw [hx]
    exact h
  unfold isNegative rankOf
  rw [hbits]
  cases negative <;> simp only [Rank.signBit, Nat.shiftLeft_eq] <;> simp <;> omega

theorem reads_double (x : Float) : Reads x.toModel.unpack (isNegative x) (rankOf x) :=
  Rank.reads_unpack x.toBits

theorem double_ext {x y : Float} (hsign : isNegative x = isNegative y)
    (hrank : rankOf x = rankOf y) : x = y := by
  have hbits : x.toBits = y.toBits := by
    have hx : x.toBits.toNat < 2 ^ 64 := x.toBits.toNat_lt
    have hy : y.toBits.toNat < 2 ^ 64 := y.toBits.toNat_lt
    simp only [isNegative, rankOf, Nat.shiftLeft_eq, decide_eq_decide] at hsign hrank
    exact UInt64.toNat_inj.1 (by omega)
  obtain ⟨⟨b, hb⟩⟩ := x
  obtain ⟨⟨c, hc⟩⟩ := y
  cases (hbits : b = c)
  rfl

/-- The double of a sign and a rank has them. -/
theorem sign_and_rank_doubleOf (negative : Bool) {rank : Nat} (h : rank ≤ double.infinity) :
    isNegative (doubleOf negative rank) = negative ∧ rankOf (doubleOf negative rank) = rank := by
  have hlt : rank < 2 ^ 63 := h.trans_lt (by decide)
  obtain ⟨b, hb⟩ : ∃ b : UInt64, b = .ofNat ((if negative then 1 <<< 63 else 0) + rank) := ⟨_, rfl⟩
  have hnat : b.toNat = (if negative then 2 ^ 63 else 0) + rank := by
    rw [hb, UInt64.toNat_ofNat_of_lt']
    · rfl
    · simp only [Nat.shiftLeft_eq, UInt64.size]
      split_ifs <;> omega
  have hsign : decide (1 <<< 63 ≤ b.toNat) = negative := by
    rw [hnat]
    cases negative
    · simpa using hlt
    · simp
  have hrank : b.toNat % 1 <<< 63 = rank := by
    rw [hnat, Nat.shiftLeft_eq]
    split_ifs <;> omega
  have hreads := Rank.reads_unpack b
  rw [hsign, hrank] at hreads
  refine sign_and_rank ?_ (hreads.packs h) hlt
  rw [hb]
  rfl

theorem doubleOf_rankOf {x : Float} (hx : isNumber x) :
    doubleOf (isNegative x) (rankOf x) = x := by
  obtain ⟨hsign, hrank⟩ := sign_and_rank_doubleOf (isNegative x) (of_decide_eq_true hx)
  exact double_ext hsign hrank

section

variable {x y : Float}

theorem signedRank_zero : isNumber 0.0 = true ∧ signedRank 0.0 = 0 := ⟨rfl, rfl⟩

theorem double_lt_zero_iff : x < 0.0 ↔ isNumber x ∧ isNegative x = true ∧ 0 < rankOf x := by
  rw [double_lt_iff, signedRank_zero.1, signedRank_zero.2]
  unfold signedRank
  rcases isNegative x <;> simp [Rank.signed]

theorem zero_lt_double_iff : 0.0 < x ↔ isNumber x ∧ isNegative x = false ∧ 0 < rankOf x := by
  rw [double_lt_iff, signedRank_zero.1, signedRank_zero.2]
  unfold signedRank
  rcases isNegative x <;> simp [Rank.signed]

theorem zero_le_double_iff :
    0.0 ≤ x ↔ isNumber x ∧ (isNegative x = false ∨ rankOf x = 0) := by
  rw [double_le_iff, signedRank_zero.1, signedRank_zero.2]
  unfold signedRank
  rcases isNegative x <;> simp [Rank.signed]

theorem double_le_zero_iff :
    x ≤ 0.0 ↔ isNumber x ∧ (isNegative x = true ∨ rankOf x = 0) := by
  rw [double_le_iff, signedRank_zero.1, signedRank_zero.2]
  unfold signedRank
  rcases isNegative x <;> simp [Rank.signed]

theorem natAbs_signedRank (x : Float) : (signedRank x).natAbs = rankOf x := by
  unfold signedRank
  rcases isNegative x
  · exact Int.natAbs_natCast _
  · exact Int.natAbs_neg _

theorem signedRank_le (hx : isNumber x) : signedRank x ≤ double.infinity := by
  have hrank : rankOf x ≤ double.infinity := of_decide_eq_true hx
  have habs := natAbs_signedRank x
  omega

/-- Nothing is below negative infinity. -/
theorem not_lt_of_infinity (hy : signedRank y = -double.infinity) : ¬ x < y := by
  intro h
  obtain ⟨hx, -, hlt⟩ := (double_lt_iff x y).1 h
  have hrank : rankOf x ≤ double.infinity := of_decide_eq_true hx
  have habs := natAbs_signedRank x
  omega

/-- A number that is not negative and below infinity is finite. -/
theorem isFinite_of_lt (h : 0 ≤ signedRank x) (hlt : signedRank x < double.infinity) :
    isFinite x := by
  have habs := natAbs_signedRank x
  exact decide_eq_true (by omega)

theorem signedRank_lt (hx : isFinite x) : signedRank x < double.infinity := by
  have hrank : rankOf x < double.infinity := of_decide_eq_true hx
  have habs := natAbs_signedRank x
  omega

theorem isNumber_of_isFinite (hx : isFinite x) : isNumber x :=
  decide_eq_true (of_decide_eq_true hx : rankOf x < double.infinity).le

theorem double_neg (hx : isNumber x) :
    isNegative (-x) = !isNegative x ∧ rankOf (-x) = rankOf x := by
  have hinf : double.infinity = 2047 * 2 ^ 52 := rfl
  have hrank : rankOf x ≤ double.infinity := of_decide_eq_true hx
  exact sign_and_rank rfl (Rank.packs_neg (reads_double x) hrank) (by omega)

theorem signedRank_neg (hx : isNumber x) : isNumber (-x) ∧ signedRank (-x) = -signedRank x := by
  obtain ⟨hsign, hrank⟩ := double_neg hx
  refine ⟨decide_eq_true (hrank.trans_le (of_decide_eq_true hx)), ?_⟩
  unfold signedRank
  rw [hsign, hrank]
  rcases isNegative x <;> simp [Rank.signed]

theorem double_neg_le_neg (h : x ≤ y) : -y ≤ -x := by
  obtain ⟨hx, hy, hle⟩ := (double_le_iff x y).1 h
  obtain ⟨hx', hxrank⟩ := signedRank_neg hx
  obtain ⟨hy', hyrank⟩ := signedRank_neg hy
  refine (double_le_iff _ _).2 ⟨hy', hx', ?_⟩
  rw [hxrank, hyrank]
  exact Int.neg_le_neg hle

theorem zero_lt_neg (h : x < 0.0) : 0.0 < -x := by
  obtain ⟨hnumber, hsign, hpos⟩ := double_lt_zero_iff.1 h
  obtain ⟨hsign', hrank⟩ := double_neg hnumber
  refine zero_lt_double_iff.2 ⟨(signedRank_neg hnumber).1, ?_, hrank ▸ hpos⟩
  rw [hsign', hsign]
  rfl

theorem double_ofNat (n : UInt64) :
    isNegative n.toFloat = false ∧ rankOf n.toFloat = double.nearest n.toNat 1 := by
  have hinf : double.infinity = 2047 * 2 ^ 52 := rfl
  have hrank := nearest_le_infinity n.toNat Nat.one_pos
  exact sign_and_rank rfl (Rank.packs_ofNat n.toNat) (by omega)

theorem units_one : units (rankOf 1.0) = 2 ^ 1074 := by
  have hrank : rankOf 1.0 = 1022 * 2 ^ 52 + 2 ^ 52 := rfl
  rw [hrank, units_eq (by decide) (.inr le_rfl), ← pow_add]

/-- The quotient of two finite numbers, the second not zero. -/
theorem double_div (hx : isFinite x) (hy : 0 < rankOf y) (hy' : isFinite y) :
    isNegative (x / y) = (isNegative x ^^ isNegative y) ∧
      rankOf (x / y) = double.nearest (units (rankOf x)) (units (rankOf y)) := by
  have hinf : double.infinity = 2047 * 2 ^ 52 := rfl
  have hrank := nearest_le_infinity (units (rankOf x)) (units_pos hy)
  exact sign_and_rank rfl (Rank.packs_div (reads_double x) (reads_double y)
    (of_decide_eq_true hx) hy (of_decide_eq_true hy')) (by omega)

theorem double_div_zero (hx : isNumber x) (hx' : 0 < rankOf x) (hy : rankOf y = 0) :
    isNegative (x / y) = (isNegative x ^^ isNegative y) ∧ rankOf (x / y) = double.infinity :=
  sign_and_rank rfl (Rank.packs_div_zero (reads_double x) (reads_double y) hx'
    (of_decide_eq_true hx) hy) (by decide)

/-- Zero divided by zero is no number, and what is no number remains none. -/
theorem isNumber_div_zero_iff (hy : rankOf y = 0) :
    isNumber (x / y) ↔ isNumber x ∧ 0 < rankOf x := by
  constructor
  · intro h
    by_contra hx
    rw [isNumber, decide_eq_true_iff] at h hx
    have hpacks : Packs (.div .binary64 x.toModel.unpack y.toModel.unpack) false
        (double.infinity + 2 ^ 51) := by
      rcases Nat.eq_zero_or_pos (rankOf x) with hzero | hpos
      · exact Rank.packs_zero_div_zero (reads_double x) (reads_double y) hzero hy
      · exact Rank.packs_nan_div (reads_double x) (by omega)
    have hrank : rankOf (x / y) = double.infinity + 2 ^ 51 :=
      (sign_and_rank rfl hpacks (by decide)).2
    omega
  · rintro ⟨hx, hpos⟩
    exact decide_eq_true (double_div_zero hx hpos hy).2.le

theorem double_infinity_div (hx : rankOf x = double.infinity) (hy : isFinite y) :
    isNegative (x / y) = (isNegative x ^^ isNegative y) ∧ rankOf (x / y) = double.infinity :=
  sign_and_rank rfl (Rank.packs_infinity_div (reads_double x) (reads_double y) hx
    (of_decide_eq_true hy)) (by decide)

/-- A finite number divided by one that is not smaller. -/
theorem rankOf_div_le (hx : isFinite x) (hy : 0 < rankOf y) (hy' : isFinite y)
    (h : rankOf x ≤ rankOf y) : rankOf (x / y) ≤ rankOf 1.0 := by
  rw [(double_div hx hy hy').2]
  refine nearest_le (units_pos hy) ?_
  rw [units_one, Nat.mul_comm]
  exact Nat.mul_le_mul_left _ (units_mono h)

/-- A finite number divided by one below two. -/
theorem rankOf_div_pos (hx : isFinite x) (hx' : 0 < rankOf x) (hy : 0 < rankOf y)
    (hy' : rankOf y < rankOf 2.0) : 0 < rankOf (x / y) := by
  have htwo : rankOf 2.0 = 1024 * 2 ^ 52 := rfl
  have hfinite : isFinite y := decide_eq_true (hy'.trans (by decide))
  rw [(double_div hx hy hfinite).2]
  refine nearest_pos (units_pos hy) ?_
  calc units (rankOf y) < 2 ^ 52 * 2 ^ (rankOf y / 2 ^ 52) := units_lt _
    _ ≤ 2 ^ 52 * 2 ^ 1023 := Nat.mul_le_mul_left _ (pow_le_pow_right₀ one_le_two (by omega))
    _ = 2 * (1 * 2 ^ 1074) := by rw [Nat.one_mul, ← pow_add, ← pow_succ']
    _ ≤ 2 * (units (rankOf x) * 2 ^ 1074) :=
      Nat.mul_le_mul_left _ (Nat.mul_le_mul_right _ (units_pos hx'))

/-- A quotient of a number that is not negative by a positive one. -/
theorem zero_le_div (hx : 0.0 ≤ x) (hy : 0.0 < y) (hy' : isFinite y) : 0.0 ≤ x / y := by
  obtain ⟨hnumber, hsign⟩ := zero_le_double_iff.1 hx
  obtain ⟨-, hpositive, hpos⟩ := zero_lt_double_iff.1 hy
  have hle : rankOf x ≤ double.infinity := of_decide_eq_true hnumber
  rw [zero_le_double_iff]
  rcases hle.lt_or_eq with hlt | hinf
  · obtain ⟨hdiv, hrank⟩ := double_div (decide_eq_true hlt) hpos hy'
    rw [hpositive, Bool.xor_false] at hdiv
    have hbound := nearest_le_infinity (units (rankOf x)) (units_pos hpos)
    refine ⟨decide_eq_true (hrank.trans_le hbound), hsign.imp hdiv.trans fun hzero => ?_⟩
    rw [hrank, hzero]
    rfl
  · obtain ⟨hdiv, hrank⟩ := double_infinity_div hinf hy'
    have hne : rankOf x ≠ 0 := by
      rw [hinf]
      decide
    rw [hpositive, Bool.xor_false, hsign.resolve_right hne] at hdiv
    exact ⟨decide_eq_true hrank.le, .inl hdiv⟩

theorem signedRank_of_nonneg (h : 0.0 ≤ x) : signedRank x = rankOf x := by
  obtain ⟨-, hsign⟩ := zero_le_double_iff.1 h
  unfold signedRank
  rcases hneg : isNegative x
  · rfl
  · rw [hneg] at hsign
    rw [hsign.resolve_left nofun]
    rfl

/-- A number that is not negative, divided by the larger of two positive numbers, gives no more. -/
theorem double_div_anti {z : Float} (hx : 0.0 ≤ x) (hy : 0.0 < y) (hz : isFinite z) (h : y ≤ z) :
    x / z ≤ x / y := by
  obtain ⟨hynumber, hypositive, hypos⟩ := zero_lt_double_iff.1 hy
  have hzpos : 0.0 < z := double_lt_of_lt_of_le hy h
  have hrank : rankOf y ≤ rankOf z := rankOf_mono h fun hneg => by
    rw [double_lt_zero_iff, hypositive] at hneg
    exact Bool.false_ne_true hneg.2.1
  have hy' : isFinite y := decide_eq_true (hrank.trans_lt (of_decide_eq_true hz))
  have hover := zero_le_div hx hzpos hz
  have hunder := zero_le_div hx hy hy'
  rw [double_le_iff, signedRank_of_nonneg hover, signedRank_of_nonneg hunder]
  refine ⟨(zero_le_double_iff.1 hover).1, (zero_le_double_iff.1 hunder).1, Int.ofNat_le.2 ?_⟩
  have hxrank : rankOf x ≤ double.infinity := of_decide_eq_true (zero_le_double_iff.1 hx).1
  have hzpos := (zero_lt_double_iff.1 hzpos).2.2
  rcases hxrank.lt_or_eq with hlt | hinf
  · have hx' : isFinite x := decide_eq_true hlt
    rw [(double_div hx' hzpos hz).2, (double_div hx' hypos hy').2]
    exact nearest_mono (units_pos hzpos) (units_pos hypos)
      (Nat.mul_le_mul_left _ (units_mono hrank))
  · rw [(double_infinity_div hinf hz).2, (double_infinity_div hinf hy').2]

theorem not_lt_zero (h : ¬ x < 0.0) :
    isNegative x = false ∨ rankOf x = 0 ∨ double.infinity < rankOf x := by
  rw [double_lt_zero_iff, isNumber, decide_eq_true_iff] at h
  rcases hx : isNegative x
  · exact .inl rfl
  · rw [hx] at h
    by_contra hc
    exact h ⟨by omega, rfl, by omega⟩

theorem double_add_infinity (hx : ¬ x < 0.0) (hy : ¬ y < 0.0)
    (h : double.infinity ≤ rankOf x ∨ double.infinity ≤ rankOf y) :
    isNegative (x + y) = false ∧ double.infinity ≤ rankOf (x + y) := by
  have hinf : double.infinity = 2047 * 2 ^ 52 := rfl
  have hadd : (x + y).toModel = .pack (.add .binary64 x.toModel.unpack y.toModel.unpack) := rfl
  rcases Rank.packs_add_infinity (reads_double x) (reads_double y) h
      ((not_lt_zero hx).imp_right fun h => by omega)
      ((not_lt_zero hy).imp_right fun h => by omega) with hpacks | hpacks
  · obtain ⟨hsign, hrank⟩ := sign_and_rank hadd hpacks (by omega)
    exact ⟨hsign, hrank.ge⟩
  · obtain ⟨hsign, hrank⟩ := sign_and_rank hadd hpacks (by omega)
    exact ⟨hsign, by omega⟩

/-- The sum of two finite numbers that are not negative. -/
theorem double_add (hx : ¬ x < 0.0) (hy : ¬ y < 0.0) (hx' : isFinite x) (hy' : isFinite y) :
    ¬ x + y < 0.0 ∧
      rankOf (x + y) = double.nearest (units (rankOf x) + units (rankOf y)) (2 ^ 1074) := by
  have hxlt : rankOf x < double.infinity := of_decide_eq_true hx'
  have hylt : rankOf y < double.infinity := of_decide_eq_true hy'
  have hxsign : isNegative x = false ∨ rankOf x = 0 :=
    (not_lt_zero hx).imp_right (Or.resolve_right · hxlt.not_gt)
  have hysign : isNegative y = false ∨ rankOf y = 0 :=
    (not_lt_zero hy).imp_right (Or.resolve_right · hylt.not_gt)
  have hadd : (x + y).toModel = .pack (.add .binary64 x.toModel.unpack y.toModel.unpack) := rfl
  obtain ⟨hsign, hrank⟩ := sign_and_rank hadd
    (Rank.packs_add (reads_double x) (reads_double y) hxlt hylt hxsign hysign)
    ((nearest_le_infinity _ (pow_pos Nat.two_pos 1074)).trans_lt (by decide))
  refine ⟨fun hneg => ?_, hrank⟩
  obtain ⟨-, hneg, hpos⟩ := double_lt_zero_iff.1 hneg
  obtain ⟨hxneg, hyneg⟩ := Bool.and_eq_true_iff.1 (hsign.symm.trans hneg)
  rw [hxneg] at hxsign
  rw [hyneg] at hysign
  rw [hrank, hxsign.resolve_left nofun, hysign.resolve_left nofun] at hpos
  exact Nat.lt_irrefl 0 hpos

/-- A sum of doubles that are not negative is none either, and it is not below them. -/
theorem double_add_grows (hx : ¬ x < 0.0) (hy : ¬ y < 0.0) :
    ¬ x + y < 0.0 ∧ min double.infinity (rankOf x) ≤ rankOf (x + y) ∧
      min double.infinity (rankOf y) ≤ rankOf (x + y) := by
  by_cases h : double.infinity ≤ rankOf x ∨ double.infinity ≤ rankOf y
  · obtain ⟨hsign, hrank⟩ := double_add_infinity hx hy h
    rw [double_lt_zero_iff, hsign]
    exact ⟨fun hc => Bool.false_ne_true hc.2.1, (min_le_left _ _).trans hrank,
      (min_le_left _ _).trans hrank⟩
  · obtain ⟨hxlt, hylt⟩ := not_or.1 h
    rw [Nat.not_le] at hxlt hylt
    have hone : 0 < 2 ^ 1074 := pow_pos Nat.two_pos 1074
    obtain ⟨hadd, hrank⟩ := double_add hx hy (decide_eq_true hxlt) (decide_eq_true hylt)
    rw [hrank]
    exact ⟨hadd,
      (min_le_right _ _).trans (le_nearest hone hxlt.le
        (Nat.mul_le_mul_right _ (Nat.le_add_right _ _))),
      (min_le_right _ _).trans (le_nearest hone hylt.le
        (Nat.mul_le_mul_right _ (Nat.le_add_left _ _)))⟩

end

end VirtualPeople
