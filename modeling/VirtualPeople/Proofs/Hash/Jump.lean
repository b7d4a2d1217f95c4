import VirtualPeople.Hash.Jump
import VirtualPeople.Proofs.Number.Nearest

/-!
# Buckets as their number grows

A quotient rounded to 53 bits is at least any whole number below it that has 53 bits
(`reaches_rounded`), so a jump from one of the first `2 ^ 53` buckets goes up (`lt_next`). A walk
therefore stops below its count (`walk_lt`), and one with a larger count takes the same jumps first:
it ends where the other ends, or at or past the smaller count (`walk_eq_or_le`).
-/

namespace VirtualPeople

namespace Jump

/-- `m * 2 ^ q` is at least `k`. -/
def Reaches (k : Nat) : Nat × Int → Prop
  | (m, .ofNat q) => k ≤ m * 2 ^ q
  | (m, .negSucc q) => k * 2 ^ (q + 1) ≤ m

theorem le_wholePart {k : Nat} : ∀ {x : Nat × Int}, Reaches k x → k ≤ wholePart x
  | (m, .ofNat q), h => by
    simpa [wholePart, Reaches, Nat.shiftLeft_eq] using h
  | (m, .negSucc q), h => by
    simp only [wholePart, Nat.shiftRight_eq_div_pow]
    exact (Nat.le_div_iff_mul_le (Nat.two_pow_pos _)).2 h

/-- Rounding at a last place `q` keeps to whole numbers if it cuts off no more than the fraction,
or keeps 53 bits. -/
theorem reaches_scaled {k num den : Nat} {q : Int} (hk : k ≤ 2 ^ 53) (hden : 0 < den)
    (h : k * den ≤ num)
    (hbits : ∀ p : Nat, q = p + 1 → 2 ^ 52 * (den * 2 ^ (p + 1)) ≤ num) :
    Reaches k (Format.roundEven (Format.scaled num den q).1 (Format.scaled num den q).2, q) := by
  refine match q, hbits with
    | .ofNat 0, _ => ?_
    | .ofNat (p + 1), hbits => ?_
    | .negSucc p, _ => ?_
  · have hdiv : k ≤ num / den := (Nat.le_div_iff_mul_le hden).2 h
    have := div_le_roundEven num den
    simp only [Format.scaled, Reaches, Nat.shiftLeft_zero, pow_zero, mul_one]
    omega
  · have hpos : 0 < den * 2 ^ (p + 1) := Nat.mul_pos hden (Nat.two_pow_pos _)
    have hdiv : 2 ^ 52 ≤ num / (den * 2 ^ (p + 1)) :=
      (Nat.le_div_iff_mul_le hpos).2 (hbits p (by simp))
    have hround := div_le_roundEven num (den * 2 ^ (p + 1))
    simp only [Format.scaled, Reaches, Nat.shiftLeft_eq]
    calc k ≤ 2 ^ 52 * 2 := by omega
      _ ≤ Format.roundEven num (den * 2 ^ (p + 1)) * 2 ^ (p + 1) :=
          Nat.mul_le_mul (hdiv.trans hround) (Nat.le_self_pow (by omega) 2)
  · have hdiv : k * 2 ^ (p + 1) ≤ num * 2 ^ (p + 1) / den := by
      refine (Nat.le_div_iff_mul_le hden).2 ?_
      rw [Nat.mul_right_comm]
      exact Nat.mul_le_mul_right _ h
    simp only [Format.scaled, Reaches, Nat.shiftLeft_eq]
    exact hdiv.trans (div_le_roundEven _ _)

/-- A whole number of 53 bits that is not above a quotient is not above the rounded quotient. -/
theorem reaches_rounded {k num den : Nat} (hk : k ≤ 2 ^ 53) (hnum : 0 < num) (hden : 0 < den)
    (h : k * den ≤ num) : Reaches k (rounded num den) := by
  have hnum_log : 2 ^ num.log2 ≤ num := Nat.log2_self_le (by omega)
  have hden_log : den < 2 ^ (den.log2 + 1) := Nat.lt_log2_self
  unfold rounded
  simp only
  split_ifs with hfits
  · refine reaches_scaled hk hden h fun p hp => ?_
    calc 2 ^ 52 * (den * 2 ^ (p + 1)) ≤ 2 ^ 52 * (2 ^ (den.log2 + 1) * 2 ^ (p + 1)) :=
          Nat.mul_le_mul_left _ (Nat.mul_le_mul_right _ hden_log.le)
      _ = 2 ^ num.log2 := by
          rw [← pow_add, ← pow_add]
          congr 1
          omega
      _ ≤ num := hnum_log
  · refine reaches_scaled hk hden h fun p hp => ?_
    have hq : (num.log2 : Int) - den.log2 - 53 = .ofNat p := by
      simp only [Int.ofNat_eq_natCast]
      omega
    rw [hq] at hfits
    simp only [Format.scaled, Nat.shiftLeft_eq, one_mul] at hfits
    have hpos : 0 < den * 2 ^ p := Nat.mul_pos hden (Nat.two_pow_pos _)
    calc 2 ^ 52 * (den * 2 ^ (p + 1)) = 2 ^ 53 * (den * 2 ^ p) := by ring
      _ ≤ num := (Nat.le_div_iff_mul_le hpos).1 (by omega)

/-- A jump goes up. -/
theorem lt_next {bucket : Nat} (h : bucket < 2 ^ 53) (key : UInt64) : bucket < next bucket key := by
  have hdivisor : (key >>> 33).toNat + 1 ≤ 2 ^ 31 := by
    have hkey := key.toNat_lt
    simp only [UInt64.toNat_shiftRight, UInt64.reduceToNat, Nat.shiftRight_eq_div_pow,
      Nat.reduceMod]
    omega
  have hfactor : Reaches 1 (rounded (1 <<< 31) ((key >>> 33).toNat + 1)) :=
    reaches_rounded (by omega) (by decide) (by omega) (by simpa using hdivisor)
  unfold next
  simp only
  split
  · rename_i m q hm
    rw [hm] at hfactor
    simp only [Reaches] at hfactor
    have hprod : (bucket + 1) * 1 ≤ (bucket + 1) * m <<< q := by
      rw [Nat.shiftLeft_eq]
      exact Nat.mul_le_mul_left _ hfactor
    refine le_wholePart (reaches_rounded (by omega) ?_ (by omega) hprod)
    omega
  · rename_i m q hm
    rw [hm] at hfactor
    simp only [Reaches, one_mul] at hfactor
    have hprod : (bucket + 1) * 1 <<< (q + 1) ≤ (bucket + 1) * m := by
      rw [Nat.shiftLeft_eq, one_mul]
      exact Nat.mul_le_mul_left _ hfactor
    have hpos : 0 < 1 <<< (q + 1) := by
      rw [Nat.shiftLeft_eq, one_mul]
      exact Nat.two_pow_pos _
    refine le_wholePart (reaches_rounded (by omega) ?_ hpos hprod)
    exact (Nat.mul_pos (Nat.succ_pos bucket) hpos).trans_le hprod

theorem walk_lt {count : Nat} : ∀ {fuel bucket : Nat} {key : UInt64}, bucket < count →
    walk count fuel bucket key < count
  | 0, _, _, h => h
  | fuel + 1, bucket, key, h => by
    rw [walk]
    split_ifs with hfurther
    · exact walk_lt hfurther
    · exact h

theorem le_walk {count : Nat} (hcount : count ≤ 2 ^ 53) : ∀ {fuel bucket : Nat} {key : UInt64},
    bucket < count → bucket ≤ walk count fuel bucket key
  | 0, _, _, _ => le_rfl
  | fuel + 1, bucket, key, h => by
    rw [walk]
    split_ifs with hfurther
    · have hup : bucket < next bucket (advance key) := lt_next (by omega) _
      exact hup.le.trans (le_walk hcount hfurther)
    · exact le_rfl

/-- With fuel for both, the walk with the larger count ends where the other one does, or at or past
the smaller count. -/
theorem walk_eq_or_le {few many : Nat} (hle : few ≤ many) (hmany : many ≤ 2 ^ 53) :
    ∀ {fuel fuel' bucket : Nat} {key : UInt64}, bucket < few → few ≤ fuel + bucket →
      many ≤ fuel' + bucket →
      walk many fuel' bucket key = walk few fuel bucket key ∨ few ≤ walk many fuel' bucket key
  | 0, _, _, _, h, hfuel, _ => by omega
  | _, 0, _, _, h, _, hfuel' => by omega
  | fuel + 1, fuel' + 1, bucket, key, h, hfuel, hfuel' => by
    have hup : bucket < next bucket (advance key) := lt_next (by omega) _
    rw [walk, walk]
    by_cases hfew : next bucket (advance key) < few
    · rw [if_pos hfew, if_pos (by omega)]
      exact walk_eq_or_le hle hmany hfew (by omega) (by omega)
    · rw [if_neg hfew]
      split_ifs with hfurther
      · exact .inr ((Nat.not_lt.1 hfew).trans (le_walk hmany hfurther))
      · exact .inl rfl

end Jump

theorem jumpHash_eq_walk {count : Nat} (h : 1 ≤ count) (key : UInt64) :
    jumpHash key count = Jump.walk count count 0 key := by
  unfold jumpHash
  rw [if_neg (by omega), Int.toNat_natCast]

theorem jumpHash_lt {count : Nat} (h : 1 ≤ count) (key : UInt64) :
    ∃ bucket < count, jumpHash key count = bucket := by
  exact ⟨_, Jump.walk_lt h, jumpHash_eq_walk h key⟩

/-- With more buckets a key stays in its bucket or goes to one of the new ones. -/
theorem jumpHash_eq_or_le {few many : Nat} (hfew : 1 ≤ few) (hle : few ≤ many)
    (hmany : many ≤ 2 ^ 53) (key : UInt64) :
    jumpHash key many = jumpHash key few ∨ (few : Int) ≤ jumpHash key many := by
  rw [jumpHash_eq_walk hfew, jumpHash_eq_walk (hfew.trans hle)]
  have hwalk : Jump.walk many many 0 key = Jump.walk few few 0 key ∨
      few ≤ Jump.walk many many 0 key := Jump.walk_eq_or_le hle hmany hfew le_rfl le_rfl
  rcases hwalk with heq | hge
  · exact .inl (by rw [heq])
  · exact .inr (by exact_mod_cast hge)

/-- A key has one of the buckets, and with more buckets it stays there or goes to one of the new
ones. -/
theorem jumpHash_range_and_consistency (key : UInt64) {few many : Int} (hfew : 1 ≤ few)
    (hle : few ≤ many) (hmany : many ≤ 2147483647) :
    (0 ≤ jumpHash key few ∧ jumpHash key few < few) ∧
      (jumpHash key many = jumpHash key few ∨
        few ≤ jumpHash key many ∧ jumpHash key many < many) := by
  lift few to Nat using by omega
  lift many to Nat using by omega
  obtain ⟨bucket, hlt, hbucket⟩ := jumpHash_lt (by omega : 1 ≤ few) key
  obtain ⟨bucket', hlt', hbucket'⟩ := jumpHash_lt (by omega : 1 ≤ many) key
  have hgrow := jumpHash_eq_or_le (by omega : 1 ≤ few) (by omega) (by omega : many ≤ 2 ^ 53) key
  omega

theorem jumpHash_range_and_consistency_1000 :
    ((1 : Int) ≤ 1000 ∧ (1000 : Int) ≤ 65536 ∧ (65536 : Int) ≤ 2147483647) ∧
      (0 ≤ jumpHash 1000 1000 ∧ jumpHash 1000 1000 < 1000) ∧
      (jumpHash 1000 65536 = jumpHash 1000 1000 ∨
        1000 ≤ jumpHash 1000 65536 ∧ jumpHash 1000 65536 < 65536) :=
  ⟨by decide, jumpHash_range_and_consistency 1000 (by decide) (by decide) (by decide)⟩

example : jumpHash 1000 1000 = 93 ∧ jumpHash 1000 65536 = 31613 := by decide

end VirtualPeople
