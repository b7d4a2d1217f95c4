import VirtualPeople.Proofs.Number.Decimal
import VirtualPeople.Proofs.Number.Operations

/-!
# Singles among the doubles

A double holds every single exactly (`units_convert`): its significand fits, and its last place is
never below the last place of the doubles. So different singles are different doubles (`widen_inj`).
-/

namespace VirtualPeople

open Format (single double)

/-- A number of at most 53 bits is a double, if it is a whole number of units. -/
theorem exists_rank {m : Nat} (hm : m < 2 ^ 53) (e : Nat) : ∃ r, units r = m * 2 ^ e := by
  rcases Nat.eq_zero_or_pos m with rfl | hpos
  · exact ⟨0, by rw [Nat.zero_mul]; rfl⟩
  · have hlog : m.log2 < 53 := (Nat.log2_lt hpos.ne').2 hm
    obtain ⟨k, hk⟩ : ∃ k, k = min e (52 - m.log2) := ⟨_, rfl⟩
    have hlt : m * 2 ^ k < 2 ^ 53 := by
      calc m * 2 ^ k < 2 ^ (m.log2 + 1) * 2 ^ k :=
            Nat.mul_lt_mul_of_pos_right Nat.lt_log2_self (Nat.two_pow_pos k)
        _ = 2 ^ (m.log2 + 1 + k) := (pow_add 2 _ _).symm
        _ ≤ 2 ^ 53 := Nat.pow_le_pow_right Nat.two_pos (by omega)
    have hfull : e - k = 0 ∨ 2 ^ 52 ≤ m * 2 ^ k := by
      rcases Nat.eq_zero_or_pos (e - k) with hzero | hrest
      · exact .inl hzero
      · right
        calc 2 ^ 52 = 2 ^ m.log2 * 2 ^ k := by
              rw [← pow_add]
              congr 1
              omega
          _ ≤ m * 2 ^ k := Nat.mul_le_mul_right _ (Nat.log2_self_le hpos.ne')
    refine ⟨(e - k) * 2 ^ 52 + m * 2 ^ k, ?_⟩
    rw [units_eq hlt hfull, Nat.mul_assoc, ← pow_add]
    congr 2
    omega

/-- The significand and the place of a rank among the singles. -/
theorem exists_value_single (rank : Nat) :
    ∃ m e : Nat, single.value rank = (m, (e : Int) - 149) ∧ rank = e * 2 ^ 23 + m ∧
      m < 2 ^ 24 ∧ (e = 0 ∨ 2 ^ 23 ≤ m) := by
  unfold Format.value
  simp only [Format.single, Nat.shiftLeft_eq, one_mul]
  split_ifs with h
  · exact ⟨rank, 0, by simp, by simp, by omega, .inl rfl⟩
  · refine ⟨2 ^ 23 + rank % 2 ^ 23, rank / 2 ^ 23 - 1, ?_, by omega, by omega, .inr (by omega)⟩
    rw [Prod.mk.injEq]
    exact ⟨rfl, by omega⟩

theorem lt_of_units_lt {r s : Nat} (h : units r < units s) : r < s :=
  Nat.lt_of_not_le fun hle => (units_mono hle).not_gt h

/-- A finite single is exactly a double. -/
theorem units_convert {m e : Nat} {rank : Nat} (hrank : rank < single.infinity)
    (hvalue : single.value rank = (m, (e : Int) - 149)) (heq : rank = e * 2 ^ 23 + m)
    (hm : m < 2 ^ 24) :
    single.convert double rank < double.infinity ∧
      units (single.convert double rank) = m * 2 ^ (e + 925) := by
  obtain ⟨r, hr⟩ := exists_rank (hm.trans (by decide)) (e + 925)
  have he : e < 255 := by
    have hinf : single.infinity = 255 * 2 ^ 23 := rfl
    omega
  have hlt : r < double.infinity := by
    refine lt_of_units_lt ?_
    have hunits : units double.infinity = 2 ^ 1024 * 2 ^ 1074 := by decide +kernel
    have hvalue : m * 2 ^ e < 2 ^ 1024 :=
      calc m * 2 ^ e < 2 ^ 24 * 2 ^ e := Nat.mul_lt_mul_of_pos_right hm (Nat.two_pow_pos e)
        _ = 2 ^ (24 + e) := (pow_add 2 24 e).symm
        _ ≤ 2 ^ 1024 := pow_le_pow_right₀ one_le_two (by omega)
    rw [hr, hunits, pow_add, ← Nat.mul_assoc]
    exact Nat.mul_lt_mul_of_lt_of_le hvalue (pow_le_pow_right₀ one_le_two (by omega))
      (pow_pos Nat.two_pos 1074)
  suffices single.convert double rank = r by
    rw [this]
    exact ⟨hlt, hr⟩
  unfold Format.convert
  rw [if_neg (by omega), hvalue, ← nearest_units hlt.le, hr]
  refine (Format.nearestScaled_eq Format.double_proper m e 149).trans
    (Format.nearest_congr Format.double_proper (Nat.two_pow_pos 149) (pow_pos Nat.two_pos 1074) ?_)
  rw [Nat.mul_assoc, Nat.mul_assoc, ← pow_add, ← pow_add, Nat.add_assoc]

/-- Finite singles of one rank among the doubles have one rank. -/
theorem convert_inj {r s : Nat} (hr : r < single.infinity) (hs : s < single.infinity)
    (h : single.convert double r = single.convert double s) : r = s := by
  obtain ⟨m, e, hvalue, heq, hm, hfull⟩ := exists_value_single r
  obtain ⟨n, f, hvalue', heq', hn, hfull'⟩ := exists_value_single s
  have hunits := (units_convert hr hvalue heq hm).2
  rw [h, (units_convert hs hvalue' heq' hn).2, pow_add, pow_add, ← Nat.mul_assoc, ← Nat.mul_assoc]
    at hunits
  have hsame : n * 2 ^ f = m * 2 ^ e := Nat.eq_of_mul_eq_mul_right (pow_pos Nat.two_pos 925) hunits
  -- A place that is not the lowest has a full significand, so neither place is above the other.
  have hplace : ∀ {m n e f : Nat}, m < 2 ^ 24 → (f = 0 ∨ 2 ^ 23 ≤ n) → n * 2 ^ f = m * 2 ^ e →
      f ≤ e := by
    intro m n e f hm hfull hsame
    by_contra hlt
    have hfits : 2 ^ 23 * 2 ^ f < 2 ^ 24 * 2 ^ e :=
      (Nat.mul_le_mul_right _ (hfull.resolve_left (by omega))).trans_lt
        (hsame.trans_lt (Nat.mul_lt_mul_of_pos_right hm (Nat.two_pow_pos e)))
    rw [← pow_add, ← pow_add, Nat.pow_lt_pow_iff_right (by decide)] at hfits
    omega
  obtain rfl := Nat.le_antisymm (hplace hm hfull' hsame) (hplace hn hfull hsame.symm)
  have := Nat.eq_of_mul_eq_mul_right (Nat.two_pow_pos f) hsame
  omega

theorem single_ext {x y : Float32} (hsign : isNegativeSingle x = isNegativeSingle y)
    (hrank : singleRank x = singleRank y) : x = y := by
  have hbits : x.toBits = y.toBits := by
    have hx : x.toBits.toNat < 2 ^ 32 := x.toBits.toNat_lt
    have hy : y.toBits.toNat < 2 ^ 32 := y.toBits.toNat_lt
    simp only [isNegativeSingle, singleRank, Nat.shiftLeft_eq, decide_eq_decide] at hsign hrank
    exact UInt32.toNat_inj.1 (by omega)
  obtain ⟨⟨b, hb⟩⟩ := x
  obtain ⟨⟨c, hc⟩⟩ := y
  cases (hbits : b = c)
  rfl

/-- The sign and the rank of a single that is finite as a double. -/
theorem sign_and_rank_widen {x : Float32} (h : isFinite (widen x)) :
    singleRank x < single.infinity ∧ isNegative (widen x) = isNegativeSingle x ∧
      rankOf (widen x) = single.convert double (singleRank x) := by
  unfold widen at h ⊢
  split_ifs at h ⊢ with hnan
  · exact absurd h (by decide +kernel)
  · rcases (Nat.not_lt.1 hnan).lt_or_eq with hlt | heq
    · obtain ⟨m, e, hvalue, hrank, hm, -⟩ := exists_value_single (singleRank x)
      exact ⟨hlt, sign_and_rank_doubleOf _ (units_convert hlt hvalue hrank hm).1.le⟩
    · rw [heq] at h
      have hinf : single.convert double single.infinity = double.infinity := rfl
      have hrank := (sign_and_rank_doubleOf (isNegativeSingle x) (le_refl double.infinity)).2
      rw [hinf, isFinite, hrank] at h
      exact absurd (of_decide_eq_true h) (lt_irrefl _)

/-- Different finite singles are different doubles. -/
theorem widen_inj {x y : Float32} (hx : isFinite (widen x)) (h : widen x = widen y) : x = y := by
  obtain ⟨hlt, hsign, hrank⟩ := sign_and_rank_widen hx
  rw [h] at hx
  obtain ⟨hlt', hsign', hrank'⟩ := sign_and_rank_widen hx
  rw [h] at hsign hrank
  exact single_ext (hsign.symm.trans hsign') (convert_inj hlt hlt' (hrank.symm.trans hrank'))

end VirtualPeople
