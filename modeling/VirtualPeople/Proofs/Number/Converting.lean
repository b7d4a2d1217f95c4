import Mathlib
import VirtualPeople.Proofs.Number.Exact
import VirtualPeople.Proofs.Number.Single

/-!
# Conversions keep the order

A finite single that is widened to a double is narrowed to itself again (`narrow_widen`): its
significand fits at its place among the singles, so that nothing is rounded (`convert_single`), and
its sign and its rank make up its word (`singleOf_singleRank`). That a single is made up of its bits
again, `Float32.ofBits_toBits`, is in no single module of Mathlib, so Mathlib is imported whole.

A number that is narrowed to a single and widened again keeps its sign, and the larger of two
numbers is not narrowed to less (`widen_narrow_mono`), infinities included. Nor is it cut off to a
smaller word (`toUInt64_mono`): what is below zero goes to zero, and what is too large to the
largest word. So the word of a quotient does not grow with a positive divisor (`toUInt64_div_anti`),
whatever is divided.
-/

namespace VirtualPeople

open Format (single double)
open Float.Model (UnpackedFloat)
open Float.Model.UnpackedFloat (unpackMantissa unpackExponent roundToInt)

theorem singleOf_singleRank (c : Float32) : singleOf (isNegativeSingle c) (singleRank c) = c := by
  have hlt : c.toBits.toNat < 2 ^ 32 := c.toBits.toNat_lt
  have hsplit : (if isNegativeSingle c then 1 <<< 31 else 0) + singleRank c = c.toBits.toNat := by
    simp only [isNegativeSingle, singleRank, Nat.shiftLeft_eq, decide_eq_true_eq]
    split_ifs <;> omega
  rw [singleOf, hsplit, UInt32.ofNat_toNat, Float32.ofBits_toBits]

/-- A finite double is converted to the single nearest to its units. -/
theorem convert_eq_nearest {r : Nat} (hr : r < double.infinity) :
    double.convert single r = single.nearest (units r) (2 ^ 1074) := by
  obtain ⟨m, e, hvalue, -, hunits, -, -⟩ := exists_units r
  unfold Format.convert
  rw [if_neg (by omega), hvalue, hunits]
  exact Format.nearestScaled_eq Format.single_proper m e 1074

/-- A finite double of the units of a single is converted to the single. -/
theorem convert_single {r m e : Nat} (hr : r < double.infinity)
    (hunits : units r = m * 2 ^ (e + 925)) (hm : m < 2 ^ 24) (hfull : e = 0 ∨ 2 ^ 23 ≤ m)
    (hfinite : e * 2 ^ 23 + m < single.infinity) :
    double.convert single r = e * 2 ^ 23 + m := by
  rw [convert_eq_nearest hr, hunits]
  refine Format.nearest_exact Format.single_proper (pow_pos Nat.two_pos 1074) ?_ hm hfull hfinite.le
  rw [Format.low_single, Nat.mul_assoc, Nat.mul_assoc, ← pow_add, ← pow_add, Nat.add_assoc]

/-- A finite single that is widened to a double is narrowed to itself. -/
theorem narrow_widen {c : Float32} (h : isFinite (widen c)) : narrow (widen c) = c := by
  obtain ⟨hlt, hsign, hrank⟩ := sign_and_rank_widen h
  obtain ⟨m, e, hvalue, heq, hm, hfull⟩ := exists_value_single (singleRank c)
  obtain ⟨hfinite, hunits⟩ := units_convert hlt hvalue heq hm
  have hconvert := convert_single hfinite hunits hm hfull (heq ▸ hlt)
  rw [← heq, ← hrank] at hconvert
  rw [narrow, if_neg, hsign, hconvert, singleOf_singleRank]
  rw [hrank]
  exact hfinite.le.not_gt

theorem convert_double_le {r : Nat} (hr : r ≤ double.infinity) :
    double.convert single r ≤ single.infinity := by
  rcases hr.lt_or_eq with hlt | rfl
  · rw [convert_eq_nearest hlt]
    exact Format.nearest_le_infinity Format.single_proper _ (pow_pos Nat.two_pos 1074)
  · exact Nat.le_refl single.infinity

theorem convert_double_mono {r s : Nat} (h : r ≤ s) (hs : s ≤ double.infinity) :
    double.convert single r ≤ double.convert single s := by
  rcases hs.lt_or_eq with hlt | rfl
  · have hpow : 0 < 2 ^ 1074 := pow_pos Nat.two_pos 1074
    rw [convert_eq_nearest (h.trans_lt hlt), convert_eq_nearest hlt]
    exact Format.nearest_mono Format.single_proper hpow hpow (Nat.mul_le_mul_right _ (units_mono h))
  · exact convert_double_le h

theorem convert_single_le {r : Nat} (hr : r ≤ single.infinity) :
    single.convert double r ≤ double.infinity := by
  rcases hr.lt_or_eq with hlt | rfl
  · obtain ⟨m, e, hvalue, heq, hm, -⟩ := exists_value_single r
    exact (units_convert hlt hvalue heq hm).1.le
  · exact Nat.le_refl double.infinity

theorem convert_single_mono {r s : Nat} (h : r ≤ s) (hs : s ≤ single.infinity) :
    single.convert double r ≤ single.convert double s := by
  rcases hs.lt_or_eq with hlt | rfl
  · obtain ⟨m, e, hvalue, rfl, hm, hfull⟩ := exists_value_single r
    obtain ⟨n, f, hvalue', rfl, hn, hfull'⟩ := exists_value_single s
    obtain ⟨hfinite, hunits⟩ := units_convert (h.trans_lt hlt) hvalue rfl hm
    obtain ⟨hfinite', hunits'⟩ := units_convert hlt hvalue' rfl hn
    refine le_of_units_le hfinite.le hfinite'.le ?_
    rw [hunits, hunits', pow_add, pow_add, ← Nat.mul_assoc, ← Nat.mul_assoc]
    refine Nat.mul_le_mul_right _ ?_
    rcases Nat.lt_or_ge e f with hlow | hhigh
    · calc m * 2 ^ e ≤ 2 ^ 24 * 2 ^ e := Nat.mul_le_mul_right _ hm.le
        _ = 2 ^ 23 * 2 ^ (e + 1) := by
          rw [← pow_add, ← pow_add, Nat.add_left_comm 23, Nat.add_comm e]
        _ ≤ n * 2 ^ f :=
          Nat.mul_le_mul (hfull'.resolve_left (by omega)) (Nat.pow_le_pow_right Nat.two_pos hlow)
    · obtain rfl : e = f := by omega
      exact Nat.mul_le_mul_right _ (by omega)
  · exact convert_single_le h

theorem lt_of_convert_single_lt {r s : Nat} (hr : r ≤ single.infinity)
    (h : single.convert double r < single.convert double s) : r < s :=
  Nat.lt_of_not_le fun hle => (convert_single_mono hle hr).not_gt h

/-- The single of a sign and a rank has them. -/
theorem sign_and_rank_singleOf (negative : Bool) {rank : Nat} (h : rank ≤ single.infinity) :
    isNegativeSingle (singleOf negative rank) = negative ∧
      singleRank (singleOf negative rank) = rank := by
  have hinf : single.infinity = 255 * 2 ^ 23 := rfl
  obtain ⟨b, hb⟩ : ∃ b : UInt32, b = .ofNat ((if negative then 1 <<< 31 else 0) + rank) := ⟨_, rfl⟩
  have hnat : b.toNat = (if negative then 2 ^ 31 else 0) + rank := by
    rw [hb, UInt32.toNat_ofNat_of_lt']
    · rfl
    · simp only [Nat.shiftLeft_eq, UInt32.size]
      split_ifs <;> omega
  have hvalid : Float.Model.Format.binary32.Valid b.toBitVec := by
    refine ⟨fun hexponent hmantissa => absurd (BitVec.eq_of_toNat_eq ?_) hmantissa⟩
    have hm : (@unpackMantissa .binary32 b.toBitVec).toNat = b.toNat % 2 ^ 23 := by
      simp [unpackMantissa]
    have he : (@unpackExponent .binary32 b.toBitVec).toNat = b.toNat / 2 ^ 23 % 2 ^ 8 := by
      simp [unpackExponent, Nat.shiftRight_eq_div_pow]
    rw [hexponent, show (-1#8 : BitVec 8).toNat = 255 from rfl] at he
    rw [hm, show (0#23 : BitVec 23).toNat = 0 from rfl]
    split_ifs at hnat <;> omega
  have hbits : (Float32.ofBits b).toBits = b :=
    congrArg Float32.toBits (Float32.ofBits_toBits ⟨⟨b, hvalid⟩⟩)
  unfold isNegativeSingle singleRank singleOf
  rw [← hb, hbits, hnat]
  cases negative <;> simp [Nat.shiftLeft_eq] <;> omega

/-- The sign and the rank of a single that is a number, as a double. -/
theorem sign_and_rank_widen_of_le {c : Float32} (h : singleRank c ≤ single.infinity) :
    isNegative (widen c) = isNegativeSingle c ∧
      rankOf (widen c) = single.convert double (singleRank c) := by
  rw [widen, if_neg h.not_gt]
  exact sign_and_rank_doubleOf _ (convert_single_le h)

/-- A number that is narrowed keeps its sign. -/
theorem sign_and_rank_widen_narrow {x : Float} (hx : isNumber x) :
    isNegative (widen (narrow x)) = isNegative x ∧
      rankOf (widen (narrow x)) = single.convert double (double.convert single (rankOf x)) := by
  have hrank : rankOf x ≤ double.infinity := of_decide_eq_true hx
  have hle := convert_double_le hrank
  obtain ⟨hsign, hnarrow⟩ := sign_and_rank_singleOf (isNegative x) hle
  rw [narrow, if_neg hrank.not_gt]
  obtain ⟨hsign', hwiden⟩ := sign_and_rank_widen_of_le (hnarrow.trans_le hle)
  exact ⟨hsign'.trans hsign, by rw [hwiden, hnarrow]⟩

theorem isNumber_widen_narrow {x : Float} (hx : isNumber x) : isNumber (widen (narrow x)) := by
  refine decide_eq_true ?_
  rw [(sign_and_rank_widen_narrow hx).2]
  exact convert_single_le (convert_double_le (of_decide_eq_true hx))

/-- The larger of two numbers is not narrowed to less. -/
theorem widen_narrow_mono {x y : Float} (h : x ≤ y) : widen (narrow x) ≤ widen (narrow y) := by
  obtain ⟨hx, hy, hle⟩ := (double_le_iff x y).1 h
  obtain ⟨hsign, hrank⟩ := sign_and_rank_widen_narrow hx
  obtain ⟨hsign', hrank'⟩ := sign_and_rank_widen_narrow hy
  have hmono : ∀ {r s : Nat}, r ≤ s → s ≤ double.infinity →
      single.convert double (double.convert single r) ≤
        single.convert double (double.convert single s) := fun hrs hs =>
    convert_single_mono (convert_double_mono hrs hs) (convert_double_le hs)
  refine (double_le_iff _ _).2 ⟨isNumber_widen_narrow hx, isNumber_widen_narrow hy, ?_⟩
  unfold signedRank
  rw [hsign, hrank, hsign', hrank']
  exact signed_map_mono (g := fun r => single.convert double (double.convert single r)) rfl
    (fun hrs => hmono hrs (of_decide_eq_true hy)) (fun hsr => hmono hsr (of_decide_eq_true hx)) hle

/-- The single before one. -/
def belowOne : Float32 := Float32.ofBits 0x3f7fffff

/-- No single is between it and one. -/
theorem widen_le_belowOne_iff {c : Float32} : widen c ≤ widen belowOne ↔ widen c < 1.0 := by
  refine ⟨fun h => double_lt_of_le_of_lt h (by decide +kernel), fun h => ?_⟩
  obtain ⟨hnumber, -, hlt⟩ := (double_lt_iff _ _).1 h
  have hrank : singleRank c ≤ single.infinity := by
    by_contra hnan
    rw [widen, if_pos (Nat.lt_of_not_le hnan)] at hnumber
    exact absurd hnumber (by decide +kernel)
  have hone : signedRank 1.0 = single.convert double 0x3f800000 := by decide +kernel
  have hbelow : signedRank (widen belowOne) = single.convert double 0x3f7fffff := by
    decide +kernel
  refine (double_le_iff _ _).2 ⟨hnumber, by decide +kernel, ?_⟩
  rw [hone] at hlt
  rw [hbelow]
  unfold signedRank at hlt ⊢
  rw [(sign_and_rank_widen_of_le hrank).2] at hlt ⊢
  rcases hsign : isNegative (widen c) <;> rw [hsign] at hlt <;> simp only [Rank.signed] at hlt ⊢
  · have hlow : singleRank c < 0x3f800000 := lt_of_convert_single_lt hrank (Int.ofNat_lt.1 hlt)
    have hle : singleRank c ≤ 0x3f7fffff := Nat.le_of_lt_succ hlow
    exact Int.ofNat_le.2 (convert_single_mono hle (by decide))
  · omega

namespace Rank

variable {u : UnpackedFloat} {a : Bool} {r : Nat}

theorem toInt_negative (hu : Reads u true r) (hr : r ≤ double.infinity) (largest : Int) :
    u.toInt 0 largest ≤ 0 := by
  rcases hr.lt_or_eq with hlt | heq
  · rcases Nat.eq_zero_or_pos r with hzero | hpos
    · rw [hu.eq_zero hzero]
      exact le_rfl
    · obtain ⟨m, e, pos, rfl, -, -, -⟩ := hu.eq_finite hpos hlt
      exact Int.neg_nonpos_of_nonneg (Int.natCast_nonneg _)
  · rw [hu.eq_infinity heq]
    exact le_rfl

/-- The word of a number: nothing is left of one below zero. -/
theorem toNat_toUInt64_of_le (hu : Reads u a r) (hr : r ≤ double.infinity) :
    (UnpackedFloat.toUInt64 u).toNat =
      if a then 0 else min (2 ^ 64 - 1) (units r / 2 ^ 1074) := by
  split_ifs with ha
  · subst ha
    have hnone : (u.toInt 0 (UInt64.size - 1)).toNat = 0 :=
      Int.toNat_of_nonpos (toInt_negative hu hr _)
    unfold UnpackedFloat.toUInt64
    rw [hnone]
    rfl
  · rw [Bool.not_eq_true] at ha
    rcases hr.lt_or_eq with hlt | rfl
    · exact toNat_toUInt64_reads hu hlt (.inl ha)
    · have hunits : 2 ^ 64 - 1 ≤ units double.infinity / 2 ^ 1074 := by decide +kernel
      rw [hu.eq_infinity rfl, ha, min_eq_left hunits]
      rfl

end Rank

variable {x y z : Float}

theorem toNat_toUInt64 (hx : isNumber x) :
    x.toUInt64.toNat = if isNegative x then 0 else min (2 ^ 64 - 1) (units (rankOf x) / 2 ^ 1074) :=
  Rank.toNat_toUInt64_of_le (reads_double x) (of_decide_eq_true hx)

theorem toUInt64_of_negative (hx : isNumber x) (hsign : isNegative x = true) : x.toUInt64 = 0 := by
  refine UInt64.toNat_inj.1 ?_
  rw [toNat_toUInt64 hx, if_pos hsign]
  rfl

/-- The larger of two numbers is not cut off to a smaller word. -/
theorem toUInt64_mono (h : x ≤ y) : x.toUInt64 ≤ y.toUInt64 := by
  obtain ⟨hx, hy, hle⟩ := (double_le_iff x y).1 h
  rw [UInt64.le_iff_toNat_le, toNat_toUInt64 hx, toNat_toUInt64 hy]
  unfold signedRank at hle
  rcases hxsign : isNegative x <;> rcases hysign : isNegative y <;> rw [hxsign, hysign] at hle <;>
    simp only [Rank.signed] at hle
  · have hrank : rankOf x ≤ rankOf y := Int.ofNat_le.1 hle
    simp only [Bool.false_eq_true, if_false]
    exact min_le_min_left _ (Nat.div_le_div_right (units_mono hrank))
  · have hzero : rankOf x = 0 := by omega
    rw [hzero, units_zero, Nat.zero_div]
    exact Nat.zero_le _
  · exact Nat.zero_le _
  · exact Nat.zero_le _

/-- A number divided by a positive one is a number of its sign. -/
theorem sign_div_of_pos (hx : isNumber x) (hy : 0.0 < y) (hy' : isFinite y) :
    isNumber (x / y) ∧ isNegative (x / y) = isNegative x := by
  obtain ⟨-, hpositive, hpos⟩ := zero_lt_double_iff.1 hy
  have hrank : rankOf x ≤ double.infinity := of_decide_eq_true hx
  rcases hrank.lt_or_eq with hlt | hinf
  · obtain ⟨hsign, hdiv⟩ := double_div (decide_eq_true hlt) hpos hy'
    rw [hpositive, Bool.xor_false] at hsign
    exact ⟨decide_eq_true (hdiv.trans_le (nearest_le_infinity _ (units_pos hpos))), hsign⟩
  · obtain ⟨hsign, hdiv⟩ := double_infinity_div hinf hy'
    rw [hpositive, Bool.xor_false] at hsign
    exact ⟨decide_eq_true hdiv.le, hsign⟩

/-- A larger divisor gives no larger word. -/
theorem toUInt64_div_anti (hx : isNumber x) (hy : 0.0 < y) (hz : isFinite z) (h : y ≤ z) :
    (x / z).toUInt64 ≤ (x / y).toUInt64 := by
  rcases hsign : isNegative x
  · exact toUInt64_mono (double_div_anti (zero_le_double_iff.2 ⟨hx, .inl hsign⟩) hy hz h)
  · obtain ⟨hnumber, hnegative⟩ := sign_div_of_pos hx (double_lt_of_lt_of_le hy h) hz
    rw [toUInt64_of_negative hnumber (hnegative.trans hsign)]
    exact UInt64.le_iff_toNat_le.2 (Nat.zero_le _)

end VirtualPeople
