import VirtualPeople.Number.Binary
import Mathlib.Algebra.Group.Nat.Defs
import Mathlib.Tactic.SplitIfs

/-!
# The order of doubles

Doubles compare as their ranks do, negative ones mirrored below zero (`double_le_iff`,
`double_lt_iff`), and a double that is no number compares with none. The comparison of doubles is
defined on unpacked words; `Reads` relates an unpacked word to the sign and the rank of the bits it
came from.
-/

namespace VirtualPeople

open Float.Model (UnpackedFloat)
open Float.Model.UnpackedFloat (Sign unpack unpackMantissa unpackExponent unpackSign)

namespace Rank

/-- The sign of a sign bit. -/
def signOf : Bool → Sign
  | true => .negative
  | false => .positive

/-- The place of a sign and a rank among all numbers. -/
def signed : Bool → Nat → Int
  | true, rank => -rank
  | false, rank => rank

/-- What a bit pattern of a sign and a rank is unpacked to. -/
inductive Reads : UnpackedFloat → Bool → Nat → Prop
  | nan (negative : Bool) (rank : Nat) : Format.double.infinity < rank →
      Reads .notANumber negative rank
  | infinity (negative : Bool) :
      Reads (.infinity (signOf negative)) negative Format.double.infinity
  | zero (negative : Bool) : Reads (.zero (signOf negative)) negative 0
  | finite (negative : Bool) (m : Nat) (q : Int) (pos : 0 < m) (e : Nat) : q = e - 1074 →
      e ≤ 2045 → m < 2 ^ 53 → (e = 0 ∨ 2 ^ 52 ≤ m) →
      Reads (.finite (signOf negative) m q pos) negative (e * 2 ^ 52 + m)

theorem sign_unpack (b : UInt64) :
    Sign.ofBitVec (@unpackSign .binary64 b.toBitVec) = signOf (1 <<< 63 ≤ b.toNat) := by
  have hb : b.toNat < 2 ^ 64 := b.toNat_lt
  have hs : (@unpackSign .binary64 b.toBitVec).toNat = b.toNat / 2 ^ 63 := by
    change (b.toBitVec.extractLsb 63 63).toNat = _
    simp [Nat.shiftRight_eq_div_pow]
    omega
  by_cases h : b.toNat / 2 ^ 63 = 0
  · have h0 : @unpackSign .binary64 b.toBitVec = 0#1 :=
      BitVec.eq_of_toNat_eq (hs.trans h)
    rw [h0, decide_eq_false (by simp only [Nat.shiftLeft_eq]; omega)]
    rfl
  · have h1 : @unpackSign .binary64 b.toBitVec ≠ 0#1 := by
      intro hc
      rw [hc] at hs
      exact h hs.symm
    rw [Sign.ofBitVec, if_neg h1, decide_eq_true (by simp only [Nat.shiftLeft_eq]; omega)]
    rfl

/-- A bit pattern is unpacked to its sign and its rank. -/
theorem reads_unpack (b : UInt64) :
    Reads (unpack .binary64 b.toBitVec) (1 <<< 63 ≤ b.toNat) (b.toNat % 1 <<< 63) := by
  have hm : (@unpackMantissa .binary64 b.toBitVec).toNat = b.toNat % 2 ^ 52 := by
    simp [unpackMantissa]
  have he : (@unpackExponent .binary64 b.toBitVec).toNat
      = b.toNat / 2 ^ 52 % 2 ^ 11 := by
    simp [unpackExponent, Nat.shiftRight_eq_div_pow]
  have hrank : b.toNat % 1 <<< 63 = b.toNat / 2 ^ 52 % 2 ^ 11 * 2 ^ 52 + b.toNat % 2 ^ 52 := by
    simp only [Nat.shiftLeft_eq]
    omega
  have hbias : ((Float.Model.Format.binary64.exponentBias : Int)
      + Float.Model.Format.binary64.mantissaBitsWithoutImplicit) = 1075 := rfl
  rw [hrank, ← hm, ← he]
  unfold unpack
  dsimp only
  rw [sign_unpack]
  by_cases hinf : @unpackExponent .binary64 b.toBitVec = -1#11
  · rw [if_pos hinf]
    by_cases hzero : @unpackMantissa .binary64 b.toBitVec = 0#52
    · rw [if_pos hzero, hinf, hzero]
      exact Reads.infinity _
    · rw [if_neg hzero]
      refine Reads.nan _ _ ?_
      have h : (@unpackMantissa .binary64 b.toBitVec).toNat ≠ 0 := fun hc =>
        hzero (BitVec.eq_of_toNat_eq hc)
      rw [hinf, show (-1#11 : BitVec 11).toNat = 2047 from rfl]
      simp only [Format.double, Nat.shiftLeft_eq]
      omega
  · rw [if_neg hinf]
    by_cases hsub : @unpackExponent .binary64 b.toBitVec = 0#11
    · rw [if_pos hsub]
      by_cases hzero : @unpackMantissa .binary64 b.toBitVec = 0#52
      · rw [dif_pos hzero, hsub, hzero]
        exact Reads.zero _
      · rw [dif_neg hzero, hsub]
        exact Reads.finite _ _ _ _ 0 rfl (by omega) (by omega) (.inl rfl)
    · rw [if_neg hsub]
      have h1 : (@unpackExponent .binary64 b.toBitVec).toNat ≠ 2047 := fun hc =>
        hinf (BitVec.eq_of_toNat_eq hc)
      have h2 : (@unpackExponent .binary64 b.toBitVec).toNat ≠ 0 := fun hc =>
        hsub (BitVec.eq_of_toNat_eq hc)
      have h3 : (1#1 ++ @unpackMantissa .binary64 b.toBitVec).toNat
          = 2 ^ 52 + (@unpackMantissa .binary64 b.toBitVec).toNat := by
        rw [BitVec.toNat_append, ← Nat.shiftLeft_add_eq_or_of_lt (BitVec.isLt _)]
        rfl
      have h4 : (@unpackExponent .binary64 b.toBitVec).toNat * 2 ^ 52
            + (@unpackMantissa .binary64 b.toBitVec).toNat
          = ((@unpackExponent .binary64 b.toBitVec).toNat - 1) * 2 ^ 52
            + (1#1 ++ @unpackMantissa .binary64 b.toBitVec).toNat := by
        rw [h3]
        omega
      rw [h4]
      exact Reads.finite _ _ _ _ _ (by rw [hbias]; omega) (by omega) (by omega) (.inr (by omega))

theorem compare_neg (a b : Int) : compare (-a) (-b) = (compare a b).swap := by
  rcases Int.lt_trichotomy a b with h | h | h
  · rw [Int.compare_eq_lt.2 h, Int.compare_eq_gt.2 (by omega)]
    rfl
  · rw [Int.compare_eq_eq.2 h, Int.compare_eq_eq.2 (by omega)]
    rfl
  · rw [Int.compare_eq_gt.2 h, Int.compare_eq_lt.2 (by omega)]
    rfl

/-- Exponents first and then significands compare as ranks do. -/
theorem compare_then {m m' e e' : Nat} {q q' : Int} (hq : q = e - 1074) (hq' : q' = e' - 1074)
    (hm : m < 2 ^ 53) (hm' : m' < 2 ^ 53) (pos : 0 < m) (pos' : 0 < m')
    (hc : e = 0 ∨ 2 ^ 52 ≤ m) (hc' : e' = 0 ∨ 2 ^ 52 ≤ m') :
    (compare q q').then (compare m m')
      = compare ((e * 2 ^ 52 + m : Nat) : Int) ((e' * 2 ^ 52 + m' : Nat) : Int) := by
  rcases Nat.lt_trichotomy e e' with h | h | h
  · rw [Int.compare_eq_lt.2 (show q < q' by omega), Int.compare_eq_lt.2 (by omega)]
    rfl
  · rw [Int.compare_eq_eq.2 (show q = q' by omega), Ordering.then]
    rcases Nat.lt_trichotomy m m' with h' | h' | h'
    · rw [Nat.compare_eq_lt.2 h', Int.compare_eq_lt.2 (by omega)]
    · rw [Nat.compare_eq_eq.2 h', Int.compare_eq_eq.2 (by omega)]
    · rw [Nat.compare_eq_gt.2 h', Int.compare_eq_gt.2 (by omega)]
  · rw [Int.compare_eq_gt.2 (show q' < q by omega), Int.compare_eq_gt.2 (by omega)]
    rfl

theorem compare_nan {u v : UnpackedFloat} {a b : Bool} {r s : Nat} (hu : Reads u a r)
    (hv : Reads v b s) (h : ¬ (r ≤ Format.double.infinity ∧ s ≤ Format.double.infinity)) :
    u.compare v = none := by
  have hinf : Format.double.infinity = 2047 * 2 ^ 52 := rfl
  cases hu with
  | nan => cases hv <;> rfl
  | infinity => cases hv <;> first | rfl | omega
  | zero => cases hv <;> first | rfl | omega
  | finite => cases hv <;> first | rfl | omega

/-- Two unpacked numbers compare as their signed ranks do. -/
theorem compare_reads {u v : UnpackedFloat} {a b : Bool} {r s : Nat} (hu : Reads u a r)
    (hv : Reads v b s) (hr : r ≤ Format.double.infinity) (hs : s ≤ Format.double.infinity) :
    u.compare v = some (compare (signed a r) (signed b s)) := by
  have hinf : Format.double.infinity = 2047 * 2 ^ 52 := rfl
  have lt {x y : Int} (h : x < y) : some (compare x y) = some .lt := by rw [Int.compare_eq_lt.2 h]
  have gt {x y : Int} (h : y < x) : some (compare x y) = some .gt := by rw [Int.compare_eq_gt.2 h]
  have eq {x y : Int} (h : x = y) : some (compare x y) = some .eq := by rw [Int.compare_eq_eq.2 h]
  cases hu with
  | nan => omega
  | infinity =>
    cases hv with
    | nan => omega
    | infinity =>
      cases a <;> cases b <;> dsimp only [signed]
      · exact (eq rfl).symm
      · exact (gt (by omega)).symm
      · exact (lt (by omega)).symm
      · exact (eq rfl).symm
    | zero =>
      cases a <;> cases b <;> dsimp only [signed]
      · exact (gt (by omega)).symm
      · exact (gt (by omega)).symm
      · exact (lt (by omega)).symm
      · exact (lt (by omega)).symm
    | finite _ m q pos e hq he hm hc =>
      cases a <;> cases b <;> dsimp only [signed]
      · exact (gt (by omega)).symm
      · exact (gt (by omega)).symm
      · exact (lt (by omega)).symm
      · exact (lt (by omega)).symm
  | zero =>
    cases hv with
    | nan => omega
    | infinity =>
      cases a <;> cases b <;> dsimp only [signed]
      · exact (lt (by omega)).symm
      · exact (gt (by omega)).symm
      · exact (lt (by omega)).symm
      · exact (gt (by omega)).symm
    | zero => cases a <;> cases b <;> rfl
    | finite _ m q pos e hq he hm hc =>
      cases a <;> cases b <;> dsimp only [signed]
      · exact (lt (by omega)).symm
      · exact (gt (by omega)).symm
      · exact (lt (by omega)).symm
      · exact (gt (by omega)).symm
  | finite _ m q pos e hq he hm hc =>
    cases hv with
    | nan => omega
    | infinity =>
      cases a <;> cases b <;> dsimp only [signed]
      · exact (lt (by omega)).symm
      · exact (gt (by omega)).symm
      · exact (lt (by omega)).symm
      · exact (gt (by omega)).symm
    | zero =>
      cases a <;> cases b <;> dsimp only [signed]
      · exact (gt (by omega)).symm
      · exact (gt (by omega)).symm
      · exact (lt (by omega)).symm
      · exact (lt (by omega)).symm
    | finite _ m' q' pos' e' hq' he' hm' hc' =>
      have hthen := compare_then hq hq' hm hm' pos pos' hc hc'
      cases a <;> cases b <;> dsimp only [signed]
      · rw [← hthen]
        rfl
      · exact (gt (by omega)).symm
      · exact (lt (by omega)).symm
      · rw [compare_neg, ← hthen]
        rfl

end Rank

/-- The place of a double among all numbers. -/
def signedRank (x : Float) : Int := Rank.signed (isNegative x) (rankOf x)

/-- Whether a double is a number, which infinities are. -/
def isNumber (x : Float) : Bool := rankOf x ≤ Format.double.infinity

theorem double_compare_eq (x y : Float) :
    x.toModel.unpack.compare y.toModel.unpack
      = if isNumber x ∧ isNumber y then some (compare (signedRank x) (signedRank y)) else none := by
  have hx : Rank.Reads x.toModel.unpack (isNegative x) (rankOf x) := Rank.reads_unpack x.toBits
  have hy : Rank.Reads y.toModel.unpack (isNegative y) (rankOf y) := Rank.reads_unpack y.toBits
  split_ifs with h
  · simp only [isNumber, decide_eq_true_eq] at h
    exact Rank.compare_reads hx hy h.1 h.2
  · simp only [isNumber, decide_eq_true_eq] at h
    exact Rank.compare_nan hx hy h

theorem double_le_iff (x y : Float) :
    x ≤ y ↔ isNumber x ∧ isNumber y ∧ signedRank x ≤ signedRank y := by
  have h : x ≤ y ↔ (x.toModel.unpack.compare y.toModel.unpack).any (·.isLE) = true :=
    decide_eq_true_iff
  rw [h, double_compare_eq]
  split_ifs with hn
  · simp only [Option.any_some, Int.isLE_compare, hn, true_and]
  · simp only [Option.any_none, Bool.false_eq_true, false_iff]
    exact fun hc => hn ⟨hc.1, hc.2.1⟩

theorem double_lt_iff (x y : Float) :
    x < y ↔ isNumber x ∧ isNumber y ∧ signedRank x < signedRank y := by
  have h : x < y ↔ (x.toModel.unpack.compare y.toModel.unpack == some .lt) = true :=
    decide_eq_true_iff
  rw [h, double_compare_eq]
  split_ifs with hn
  · simp [hn, Int.compare_eq_lt]
  · simp only [beq_iff_eq, reduceCtorEq, false_iff]
    exact fun hc => hn ⟨hc.1, hc.2.1⟩

theorem double_beq_iff (x y : Float) :
    x == y ↔ isNumber x ∧ isNumber y ∧ signedRank x = signedRank y := by
  have h : (x == y) = (x.toModel.unpack.compare y.toModel.unpack == some .eq) := rfl
  rw [h, double_compare_eq]
  split_ifs with hn
  · simp [hn]
  · simp only [beq_iff_eq, reduceCtorEq, false_iff]
    exact fun hc => hn ⟨hc.1, hc.2.1⟩

theorem double_lt_of_lt_of_le {x y z : Float} (h : x < y) (h' : y ≤ z) : x < z := by
  obtain ⟨hx, -, hlt⟩ := (double_lt_iff x y).1 h
  obtain ⟨-, hz, hle⟩ := (double_le_iff y z).1 h'
  exact (double_lt_iff x z).2 ⟨hx, hz, by omega⟩

theorem double_lt_of_le_of_lt {x y z : Float} (h : x ≤ y) (h' : y < z) : x < z := by
  obtain ⟨hx, -, hle⟩ := (double_le_iff x y).1 h
  obtain ⟨-, hz, hlt⟩ := (double_lt_iff y z).1 h'
  exact (double_lt_iff x z).2 ⟨hx, hz, by omega⟩

theorem double_le_of_lt {x y : Float} (h : x < y) : x ≤ y := by
  obtain ⟨hx, hy, hlt⟩ := (double_lt_iff x y).1 h
  exact (double_le_iff x y).2 ⟨hx, hy, Int.le_of_lt hlt⟩

theorem double_beq_symm {x y : Float} (h : x == y) : y == x := by
  obtain ⟨hx, hy, heq⟩ := (double_beq_iff x y).1 h
  exact (double_beq_iff y x).2 ⟨hy, hx, heq.symm⟩

theorem double_not_beq_of_lt {x y : Float} (h : x < y) : ¬ x == y := by
  rw [double_beq_iff]
  rintro ⟨-, -, heq⟩
  exact absurd ((double_lt_iff x y).1 h).2.2 (by omega)

theorem double_lt_or_beq_of_le {x y : Float} (h : x ≤ y) : x < y ∨ x == y := by
  obtain ⟨hx, hy, hle⟩ := (double_le_iff x y).1 h
  rw [double_lt_iff, double_beq_iff]
  exact (Int.lt_or_eq_of_le hle).imp (⟨hx, hy, ·⟩) (⟨hx, hy, ·⟩)

theorem signedRank_eq_rankOf {x : Float} (hx : isNumber x) (h : ¬ x < 0.0) :
    signedRank x = rankOf x := by
  have hzero : isNumber 0.0 = true ∧ signedRank 0.0 = 0 := ⟨rfl, rfl⟩
  rw [double_lt_iff, hzero.2] at h
  have hle : 0 ≤ signedRank x := Int.not_lt.1 fun hlt => h ⟨hx, hzero.1, hlt⟩
  unfold signedRank at hle ⊢
  rcases hn : isNegative x
  · rfl
  · have hneg : Rank.signed true (rankOf x) = -(rankOf x : Int) := rfl
    rw [hn, hneg] at hle
    rw [hneg]
    omega

/-- The larger of two numbers that are not negative has the higher rank. -/
theorem rankOf_mono {x y : Float} (h : x ≤ y) (hx : ¬ x < 0.0) : rankOf x ≤ rankOf y := by
  obtain ⟨hnx, hny, hle⟩ := (double_le_iff x y).1 h
  have hy : ¬ y < 0.0 := by
    intro hy
    obtain ⟨-, hzero, hlt⟩ := (double_lt_iff y 0.0).1 hy
    exact hx ((double_lt_iff x 0.0).2 ⟨hnx, hzero, by omega⟩)
  rw [signedRank_eq_rankOf hnx hx, signedRank_eq_rankOf hny hy] at hle
  omega

end VirtualPeople
