import VirtualPeople.Proofs.Number.Nearest
import VirtualPeople.Proofs.Number.Order

/-!
# Arithmetic on doubles, exactly

The sum and the quotient of two doubles are the nearest doubles to the exact ones. Arithmetic on
doubles is defined on unpacked words: a mantissa is cut off with two bits for the residue, which are
those of the exact quotient (`Represents`), so what it is rounded to is the quotient rounded
(`Represents.roundedMantissa`). `Packs` relates an unpacked word to the sign and the rank that it
is packed to, as `Reads` does for unpacking.
-/

namespace VirtualPeople

open Float.Model (UnpackedFloat totalExponent)
open Float.Model.Format (binary64)
open Float.Model.UnpackedFloat
open Format (double roundEven)

namespace Rank

/-- A mantissa with the bits for its residue, as they stand for a quotient. -/
structure Represents (em : ExtendedMantissa) (num den : Nat) : Prop where
  mantissa : em.mantissa = num / den
  roundBit : em.roundBit = true ↔ den ≤ 2 * (num % den)
  stickyBit : em.stickyBit = true ↔ 2 * (num % den) ≠ 0 ∧ 2 * (num % den) ≠ den

namespace Represents

variable {em : ExtendedMantissa} {num den : Nat}

theorem ofFraction (num : Nat) {den : Nat} (hden : 0 < den) :
    Represents (.ofMantissaAndAccuracy (num / den) (accuracyOfFraction (num % den) den))
      num den := by
  have hlt := Nat.mod_lt num hden
  unfold accuracyOfFraction
  split_ifs with hzero
  · constructor <;> simp [ExtendedMantissa.ofMantissaAndAccuracy, hzero]
    omega
  · rcases Nat.lt_trichotomy (2 * (num % den)) den with h | h | h
    · rw [Nat.compare_eq_lt.2 h]
      constructor <;> simp [ExtendedMantissa.ofMantissaAndAccuracy] <;> omega
    · rw [Nat.compare_eq_eq.2 h]
      constructor <;> simp [ExtendedMantissa.ofMantissaAndAccuracy] <;> omega
    · rw [Nat.compare_eq_gt.2 h]
      constructor <;> simp [ExtendedMantissa.ofMantissaAndAccuracy] <;> omega

theorem shiftRightOne (h : Represents em num den) (hden : 0 < den) :
    Represents em.shiftRightOne num (den * 2) := by
  have hlt := Nat.mod_lt num hden
  have hrest : num % (den * 2) = num % den + den * (num / den % 2) := Nat.mod_mul
  have hbit : num / den % 2 = 0 ∨ num / den % 2 = 1 := Nat.mod_two_eq_zero_or_one _
  constructor
  · rw [← Nat.div_div_eq_div_mul, ← h.mantissa]
    rfl
  · rw [hrest]
    simp only [ExtendedMantissa.shiftRightOne, bne_iff_ne, h.mantissa]
    rcases hbit with hbit | hbit <;> rw [hbit] <;> omega
  · rw [hrest]
    simp only [ExtendedMantissa.shiftRightOne, Bool.or_eq_true, h.roundBit, h.stickyBit]
    rcases hbit with hbit | hbit <;> rw [hbit] <;> omega

theorem shiftRight (h : Represents em num den) (hden : 0 < den) :
    ∀ j : Nat, Represents (em >>> j) num (den * 2 ^ j)
  | 0 => by simpa [HShiftRight.hShiftRight, Nat.repeat] using h
  | j + 1 => by
    have hj := (shiftRight h hden j).shiftRightOne (Nat.mul_pos hden (Nat.two_pow_pos j))
    rwa [Nat.mul_assoc, ← Nat.pow_succ] at hj

theorem roundedMantissa (h : Represents em num den) :
    em.roundedMantissa = roundEven num den := by
  obtain ⟨m, r, s⟩ := em
  obtain ⟨rfl, hr, hs⟩ := h
  unfold roundEven
  dsimp only
  rcases r <;> rcases s <;> simp at hr hs <;>
    simp only [ExtendedMantissa.roundedMantissa, ExtendedMantissa.accuracy,
      Accuracy.roundToNearestEven] <;> split_ifs <;> omega

end Represents

def signBit (negative : Bool) : Nat := if negative then 2 ^ 63 else 0

/-- An unpacked word is packed to the bits of a sign and a rank. -/
def Packs (u : UnpackedFloat) (negative : Bool) (rank : Nat) : Prop :=
  (pack binary64 u).toNat = signBit negative + rank

theorem packs_zero (negative : Bool) : Packs (.zero (signOf negative)) negative 0 := by
  cases negative <;> rfl

theorem packs_infinity (negative : Bool) :
    Packs (.infinity (signOf negative)) negative double.infinity := by
  cases negative <;> rfl

theorem packs_notANumber : Packs .notANumber false (double.infinity + 2 ^ 51) := rfl

theorem toNat_packComponents (negative : Bool) (e : BitVec 11) (m : BitVec 52) :
    (packComponents binary64 (signOf negative) e m).toNat =
      signBit negative + (e.toNat * 2 ^ 52 + m.toNat) := by
  have he := e.isLt
  have hm := m.isLt
  unfold packComponents
  rw [BitVec.toNat_append, BitVec.toNat_append, ← Nat.shiftLeft_add_eq_or_of_lt hm,
    ← Nat.shiftLeft_add_eq_or_of_lt he]
  simp only [Nat.shiftLeft_eq]
  cases negative
  · simp [signBit, signOf, Sign.toBitVec]
  · simp [signBit, signOf, Sign.toBitVec]
    omega

/-- A significand at its place is packed to its rank; what is too large goes to infinity. -/
theorem packs_finite (negative : Bool) {m e : Nat} (pos : 0 < m) (hm : m < 2 ^ 53)
    (hfull : e = 0 ∨ 2 ^ 52 ≤ m) :
    Packs (.finite (signOf negative) m ((e : Int) - 1074) pos) negative
      (min double.infinity (e * 2 ^ 52 + m)) := by
  have hinf : double.infinity = 2047 * 2 ^ 52 := rfl
  have hbiased : ((e : Int) - 1074 + binary64.exponentBias +
      binary64.mantissaBitsWithoutImplicit).toNat = e + 1 := by
    have : (binary64.exponentBias : Int) + binary64.mantissaBitsWithoutImplicit = 1075 := rfl
    omega
  have hlog : m.log2 + 1 = binary64.mantissaBits ↔ 2 ^ 52 ≤ m := by
    have hlt : m.log2 < 53 := (Nat.log2_lt pos.ne').2 hm
    have hle : 52 ≤ m.log2 ↔ 2 ^ 52 ≤ m := Nat.le_log2 pos.ne'
    have hbits : binary64.mantissaBits = 53 := rfl
    omega
  have hpow : (2 : Nat) ^ binary64.exponentBits = 2048 := rfl
  unfold Packs pack
  dsimp only
  simp only [hbiased, hlog]
  split_ifs with hlarge hnormal
  · rw [min_eq_left (by omega)]
    exact packs_infinity negative
  · rw [toNat_packComponents, BitVec.toNat_ofNat, BitVec.toNat_ofNat, min_eq_right (by omega)]
    omega
  · rw [toNat_packComponents, BitVec.toNat_zero, BitVec.toNat_ofNat, min_eq_right (by omega)]
    omega

/-! ## Rounding -/

/-- A rounded significand, at its place or, if it has grown by a bit, at the next. -/
theorem shiftToTargetExponent_exact {r e : Nat} (hr : r ≤ 2 ^ 53) :
    ∃ m e' : Nat, shiftToTargetExponent binary64 r ((e : Int) - 1074) .exact =
        (⟨m, false, false⟩, (e' : Int) - 1074) ∧ m < 2 ^ 53 ∧
      e' * 2 ^ 52 + m = e * 2 ^ 52 + r ∧ ((e = 0 ∨ 2 ^ 52 ≤ r) → e' = 0 ∨ 2 ^ 52 ≤ m) := by
  have hbits : (binary64.mantissaBits : Int) = 53 := rfl
  have hmin : binary64.minExponent = -1074 := rfl
  unfold shiftToTargetExponent shiftToExponent Float.Model.Format.targetExponent totalExponent
  rw [hbits, hmin]
  rcases hr.lt_or_eq with hlt | rfl
  · have hlog : r.log2 < 53 := by
      rcases Nat.eq_zero_or_pos r with rfl | hpos
      · simp
      · exact (Nat.log2_lt hpos.ne').2 hlt
    have hstay : (max ((r.log2 : Int) + 1 + (e - 1074) - 53) (-1074) - ((e : Int) - 1074)).toNat
        = 0 := by omega
    refine ⟨r, e, ?_, hlt, rfl, id⟩
    simp only [hstay, Nat.cast_zero, Int.add_zero]
    rfl
  · have hgrow : (max (((2 ^ 53 : Nat).log2 : Int) + 1 + (e - 1074) - 53) (-1074) -
        ((e : Int) - 1074)).toNat = 1 := by
      rw [Nat.log2_two_pow]
      omega
    refine ⟨2 ^ 52, e + 1, ?_, by omega, by omega, fun _ => .inr le_rfl⟩
    simp only [hgrow]
    rw [Prod.mk.injEq]
    exact ⟨rfl, by push_cast; omega⟩

section

variable {num den N D a b : Nat} {q : Int}

/-- The part above the exponent `a - b` in terms of the place `e`, which is `j` above it. -/
theorem mul_place {j e : Nat} (he : (j : Int) + 1074 + a = b + e)
    (hvalue : num * 2 ^ a * D = N * (den * 2 ^ b)) :
    num * (D * 2 ^ e) = N * 2 ^ 1074 * (den * 2 ^ j) := by
  refine Nat.eq_of_mul_eq_mul_right (Nat.two_pow_pos a) ?_
  calc num * (D * 2 ^ e) * 2 ^ a = num * 2 ^ a * D * 2 ^ e := by ring
    _ = N * den * (2 ^ b * 2 ^ e) := by rw [hvalue]; ring
    _ = N * den * (2 ^ 1074 * 2 ^ j * 2 ^ a) := by
        rw [← pow_add, ← pow_add, ← pow_add]
        congr 2
        omega
    _ = N * 2 ^ 1074 * (den * 2 ^ j) * 2 ^ a := by
        generalize 2 ^ 1074 = u
        ring

/-- The exponent that the model aims at is the last place of the quotient `N / D`, of which
`num / den` is the part above the exponent `q`. -/
theorem isPlace_target (hden : 0 < den) (hD : 0 < D) (hq : q = (a : Int) - b)
    (hvalue : num * 2 ^ a * D = N * (den * 2 ^ b)) (hbits : q ≤ -1074 ∨ 2 ^ 52 ≤ num / den) :
    ∃ j e : Nat, binary64.targetExponent (totalExponent (num / den) q) - q = j ∧
      q + j = (e : Int) - 1074 ∧ IsPlace N D e ∧
      num * (D * 2 ^ e) = N * 2 ^ 1074 * (den * 2 ^ j) := by
  have hlog : q ≤ -1074 ∨ 52 ≤ (num / den).log2 := by
    refine hbits.imp_right fun h => (Nat.le_log2 ?_).2 h
    omega
  obtain ⟨t, ht⟩ : ∃ t, t = binary64.targetExponent (totalExponent (num / den) q) := ⟨_, rfl⟩
  have htarget : t = max (((num / den).log2 : Int) + 1 + q - 53) (-1074) := ht
  obtain ⟨j, hj⟩ : ∃ j : Nat, t - q = j := ⟨(t - q).toNat, by omega⟩
  obtain ⟨e, he⟩ : ∃ e : Nat, q + j = (e : Int) - 1074 := ⟨(t + 1074).toNat, by omega⟩
  have hcross := mul_place (by omega : (j : Int) + 1074 + a = b + e) hvalue
  have hpos : 0 < den * 2 ^ j := Nat.mul_pos hden (Nat.two_pow_pos j)
  refine ⟨j, e, ht ▸ hj, he, ⟨?_, ?_⟩, hcross⟩
  · have hlt : num < 2 ^ (53 + j) * den := by
      rw [← Nat.div_lt_iff_lt_mul hden]
      exact Nat.lt_log2_self.trans_le (Nat.pow_le_pow_right (by omega) (by omega))
    refine Nat.lt_of_mul_lt_mul_right (a := den * 2 ^ j) ?_
    rw [← hcross]
    calc num * (D * 2 ^ e) < 2 ^ (53 + j) * den * (D * 2 ^ e) :=
          Nat.mul_lt_mul_of_pos_right hlt (Nat.mul_pos hD (Nat.two_pow_pos e))
      _ = D * 2 ^ (e + 53) * (den * 2 ^ j) := by ring
  · by_cases h0 : e = 0
    · exact .inl h0
    · right
      have hne : num / den ≠ 0 := by
        intro hzero
        rw [hzero, Nat.log2_zero] at htarget
        omega
      have hle : 2 ^ (52 + j) * den ≤ num := by
        rw [← Nat.le_div_iff_mul_le hden, ← Nat.le_log2 hne]
        omega
      refine Nat.le_of_mul_le_mul_right ?_ hpos
      rw [← hcross]
      calc D * 2 ^ (e + 52) * (den * 2 ^ j) = 2 ^ (52 + j) * den * (D * 2 ^ e) := by ring
        _ ≤ num * (D * 2 ^ e) := Nat.mul_le_mul_right _ hle

/-- A quotient that is cut off with enough bits is rounded to the nearest double. -/
theorem packs_roundWithAccuracy (negative : Bool) (hden : 0 < den) (hD : 0 < D)
    (hq : q = (a : Int) - b) (hvalue : num * 2 ^ a * D = N * (den * 2 ^ b))
    (hbits : q ≤ -1074 ∨ 2 ^ 52 ≤ num / den) :
    Packs (roundWithAccuracy binary64 (signOf negative) (num / den) q
      (accuracyOfFraction (num % den) den)) negative (double.nearest N D) := by
  obtain ⟨j, e, hj, he, hplace, hcross⟩ := isPlace_target hden hD hq hvalue hbits
  have hshift : shiftToTargetExponent binary64 (num / den) q
      (accuracyOfFraction (num % den) den) =
        (ExtendedMantissa.ofMantissaAndAccuracy (num / den)
          (accuracyOfFraction (num % den) den) >>> j, (e : Int) - 1074) := by
    unfold shiftToTargetExponent shiftToExponent
    simp only [hj, Int.toNat_natCast, he]
  have hrounded := ((Represents.ofFraction num hden).shiftRight hden j).roundedMantissa
  have hround : roundEven num (den * 2 ^ j) = roundEven (N * 2 ^ 1074) (D * 2 ^ e) :=
    roundEven_congr (Nat.mul_pos hden (Nat.two_pow_pos j)) (Nat.mul_pos hD (Nat.two_pow_pos e))
      hcross
  have hlarge : roundEven (N * 2 ^ 1074) (D * 2 ^ e) ≤ 2 ^ 53 :=
    (roundEven_le_succ _ _).trans hplace.floor_lt
  have hfull : e = 0 ∨ 2 ^ 52 ≤ roundEven (N * 2 ^ 1074) (D * 2 ^ e) := by
    by_cases h0 : e = 0
    · exact .inl h0
    · exact .inr ((hplace.le_floor h0).trans (div_le_roundEven _ _))
  rw [nearest_eq hplace]
  generalize roundEven (N * 2 ^ 1074) (D * 2 ^ e) = r at *
  obtain ⟨m, e', hagain, hm, hrank, hfull'⟩ := shiftToTargetExponent_exact hlarge
  rw [roundWithAccuracy, hshift]
  dsimp only
  rw [hrounded, hround, hagain, ← hrank]
  dsimp only
  by_cases hzero : m = 0
  · rw [dif_pos hzero]
    subst hzero
    obtain rfl : e' = 0 := (hfull' hfull).resolve_right (by omega)
    exact packs_zero negative
  · rw [dif_neg hzero]
    exact packs_finite negative (Nat.pos_of_ne_zero hzero) hm (hfull' hfull)

/-- A natural at an exponent is rounded to the nearest double. -/
theorem packs_round (negative : Bool) {m : Nat} (hm : 0 < m) (hD : 0 < D)
    (hq : q = (a : Int) - b) (hvalue : m * 2 ^ a * D = N * 2 ^ b) :
    Packs (UnpackedFloat.round binary64 (signOf negative) m q) negative (double.nearest N D) := by
  obtain ⟨t, ht⟩ : ∃ t, t = binary64.targetExponent (totalExponent m q) := ⟨_, rfl⟩
  have htarget : t = max ((m.log2 : Int) + 1 + q - 53) (-1074) := ht
  obtain ⟨k, hk⟩ : ∃ k, k = (q - t).toNat := ⟨_, rfl⟩
  have hbits : q - k ≤ -1074 ∨ 2 ^ 52 ≤ m * 2 ^ k / 1 := by
    rw [Nat.div_one]
    by_cases hlow : q - k ≤ -1074
    · exact .inl hlow
    · right
      calc 2 ^ 52 ≤ 2 ^ (m.log2 + k) := Nat.pow_le_pow_right (by omega) (by omega)
        _ = 2 ^ m.log2 * 2 ^ k := pow_add 2 _ _
        _ ≤ m * 2 ^ k := Nat.mul_le_mul_right _ (Nat.log2_self_le hm.ne')
  have hvalue' : m * 2 ^ k * 2 ^ a * D = N * (1 * 2 ^ (b + k)) := by
    calc m * 2 ^ k * 2 ^ a * D = m * 2 ^ a * D * 2 ^ k := by ring
      _ = N * (1 * 2 ^ (b + k)) := by rw [hvalue]; ring
  have hround := packs_roundWithAccuracy negative Nat.one_pos hD
    (by push_cast; omega : q - k = (a : Int) - (b + k : Nat)) hvalue' hbits
  rw [Nat.div_one, Nat.mod_one] at hround
  unfold UnpackedFloat.round decreaseExponent
  dsimp only
  rw [← ht, ← hk, Nat.shiftLeft_eq]
  exact hround

end

section

variable {u v : UnpackedFloat} {a b : Bool} {r s : Nat}

theorem Reads.eq_zero (h : Reads u a r) (hr : r = 0) : u = .zero (signOf a) := by
  have hinf : double.infinity = 2047 * 2 ^ 52 := rfl
  cases h with
  | zero => rfl
  | nan => omega
  | infinity => omega
  | finite => omega

theorem Reads.eq_infinity (h : Reads u a r) (hr : r = double.infinity) :
    u = .infinity (signOf a) := by
  have hinf : double.infinity = 2047 * 2 ^ 52 := rfl
  cases h with
  | infinity => rfl
  | nan => omega
  | zero => omega
  | finite => omega

theorem Reads.eq_notANumber (h : Reads u a r) (hr : double.infinity < r) : u = .notANumber := by
  have hinf : double.infinity = 2047 * 2 ^ 52 := rfl
  cases h with
  | nan => rfl
  | infinity => omega
  | zero => omega
  | finite => omega

theorem Reads.eq_finite (h : Reads u a r) (hpos : 0 < r) (hr : r < double.infinity) :
    ∃ (m e : Nat) (pos : 0 < m), u = .finite (signOf a) m ((e : Int) - 1074) pos ∧
      r = e * 2 ^ 52 + m ∧ m < 2 ^ 53 ∧ (e = 0 ∨ 2 ^ 52 ≤ m) := by
  cases h with
  | finite _ m q pos e hq he hm hfull => exact ⟨m, e, pos, by rw [hq], rfl, hm, hfull⟩
  | nan => omega
  | infinity => omega
  | zero => omega

/-- A number is packed to the sign and the rank that it was read from. -/
theorem Reads.packs (h : Reads u a r) (hr : r ≤ double.infinity) : Packs u a r := by
  rcases Nat.eq_zero_or_pos r with hzero | hpos
  · rw [h.eq_zero hzero, hzero]
    exact packs_zero a
  · rcases hr.lt_or_eq with hlt | hinf
    · obtain ⟨m, e, pos, rfl, rfl, hm, hfull⟩ := h.eq_finite hpos hlt
      have hdone := packs_finite a pos hm hfull
      rwa [min_eq_right hlt.le] at hdone
    · rw [h.eq_infinity hinf, hinf]
      exact packs_infinity a

theorem packs_ofNat (n : Nat) : Packs (ofNat binary64 n) false (double.nearest n 1) := by
  unfold ofNat ofInt UnpackedFloat.normalize
  rcases Nat.eq_zero_or_pos n with rfl | hpos
  · exact packs_zero false
  · rw [Int.compare_eq_gt.2 (Int.natCast_pos.2 hpos)]
    dsimp only
    rw [Int.toNat_natCast]
    exact packs_round false hpos Nat.one_pos (show (0 : Int) = (0 : Nat) - (0 : Nat) from rfl)
      (Nat.mul_one _)

theorem packs_neg (h : Reads u a r) (hr : r ≤ double.infinity) : Packs u.neg (!a) r := by
  have hsign : -signOf a = signOf (!a) := by cases a <;> rfl
  refine Reads.packs ?_ hr
  cases h with
  | nan => omega
  | infinity =>
    change Reads (.infinity (-signOf a)) (!a) _
    rw [hsign]
    exact .infinity _
  | zero =>
    change Reads (.zero (-signOf a)) (!a) _
    rw [hsign]
    exact .zero _
  | finite _ m q pos e hq he hm hfull =>
    change Reads (.finite (-signOf a) m q pos) (!a) _
    rw [hsign]
    exact .finite _ m q pos e hq he hm hfull

theorem add_zero_zero (a b : Bool) : add binary64 (.zero (signOf a)) (.zero (signOf b)) =
    .zero (signOf (a && b)) := by
  cases a <;> cases b <;> rfl

theorem sign_div (a b : Bool) : signOf a / signOf b = signOf (a ^^ b) := by
  cases a <;> cases b <;> rfl

/-- The quotient of two finite numbers, neither of them zero. -/
theorem packs_div_pos (hu : Reads u a r) (hv : Reads v b s) (hr : 0 < r)
    (hr' : r < double.infinity) (hs : 0 < s) (hs' : s < double.infinity) :
    Packs (div binary64 u v) (a ^^ b) (double.nearest (units r) (units s)) := by
  obtain ⟨m, e, pos, rfl, rfl, hm, hfull⟩ := hu.eq_finite hr hr'
  obtain ⟨m', e', pos', rfl, rfl, hm', hfull'⟩ := hv.eq_finite hs hs'
  rw [units_eq hm hfull, units_eq hm' hfull']
  obtain ⟨q, hq⟩ : ∃ q, q = (e : Int) - 1074 - (e' - 1074) := ⟨_, rfl⟩
  obtain ⟨t, ht⟩ : ∃ t, t = min q (binary64.targetExponent
      (totalExponent m (e - 1074) - totalExponent m' (e' - 1074))) := ⟨_, rfl⟩
  have htarget : t = min q (max (((m.log2 : Int) + 1 + (e - 1074)) -
      (m'.log2 + 1 + (e' - 1074)) - 53) (-1074)) := ht
  obtain ⟨k, hk⟩ : ∃ k, k = (q - t).toNat := ⟨_, rfl⟩
  have hvalue : m * 2 ^ k * 2 ^ e * (m' * 2 ^ e') = m * 2 ^ e * (m' * 2 ^ (e' + k)) := by
    ring
  have hbits : t ≤ -1074 ∨ 2 ^ 52 ≤ m * 2 ^ k / m' := by
    by_cases hlow : t ≤ -1074
    · exact .inl hlow
    · right
      rw [Nat.le_div_iff_mul_le pos']
      calc 2 ^ 52 * m' ≤ 2 ^ 52 * 2 ^ (m'.log2 + 1) :=
            Nat.mul_le_mul_left _ Nat.lt_log2_self.le
        _ = 2 ^ (52 + (m'.log2 + 1)) := (pow_add 2 _ _).symm
        _ ≤ 2 ^ (m.log2 + k) := Nat.pow_le_pow_right (by omega) (by omega)
        _ = 2 ^ m.log2 * 2 ^ k := pow_add 2 _ _
        _ ≤ m * 2 ^ k := Nat.mul_le_mul_right _ (Nat.log2_self_le pos.ne')
  have hround := packs_roundWithAccuracy (a ^^ b) pos' (Nat.mul_pos pos' (Nat.two_pow_pos e'))
    (by push_cast; omega : t = (e : Int) - (e' + k : Nat)) hvalue hbits
  unfold div divCore
  dsimp only
  rw [sign_div, ← hq, ← ht, ← hk, Nat.shiftLeft_eq]
  exact hround

/-- The quotient of two finite numbers, the second not zero. -/
theorem packs_div (hu : Reads u a r) (hv : Reads v b s) (hr : r < double.infinity) (hs : 0 < s)
    (hs' : s < double.infinity) :
    Packs (div binary64 u v) (a ^^ b) (double.nearest (units r) (units s)) := by
  rcases Nat.eq_zero_or_pos r with rfl | hpos
  · have hdone := packs_zero (a ^^ b)
    rw [← sign_div] at hdone
    obtain ⟨m, e, pos, rfl, -, -, -⟩ := hv.eq_finite hs hs'
    rw [hu.eq_zero rfl]
    exact hdone
  · exact packs_div_pos hu hv hpos hr hs hs'

/-- A number other than zero divided by a zero. -/
theorem packs_div_zero (hu : Reads u a r) (hv : Reads v b s) (hr : 0 < r)
    (hr' : r ≤ double.infinity) (hs : s = 0) :
    Packs (div binary64 u v) (a ^^ b) double.infinity := by
  have hdone := packs_infinity (a ^^ b)
  rw [← sign_div] at hdone
  rw [hv.eq_zero hs]
  rcases hr'.lt_or_eq with hlt | hinf
  · obtain ⟨m, e, pos, rfl, -, -, -⟩ := hu.eq_finite hr hlt
    exact hdone
  · rw [hu.eq_infinity hinf]
    exact hdone

theorem packs_zero_div_zero (hu : Reads u a r) (hv : Reads v b s) (hr : r = 0) (hs : s = 0) :
    Packs (div binary64 u v) false (double.infinity + 2 ^ 51) := by
  rw [hu.eq_zero hr, hv.eq_zero hs]
  exact packs_notANumber

theorem packs_nan_div (hu : Reads u a r) (hr : double.infinity < r) :
    Packs (div binary64 u v) false (double.infinity + 2 ^ 51) := by
  rw [hu.eq_notANumber hr]
  exact packs_notANumber

theorem packs_infinity_div (hu : Reads u a r) (hv : Reads v b s) (hr : r = double.infinity)
    (hs : s < double.infinity) : Packs (div binary64 u v) (a ^^ b) double.infinity := by
  have hdone := packs_infinity (a ^^ b)
  rw [← sign_div] at hdone
  rw [hu.eq_infinity hr]
  rcases Nat.eq_zero_or_pos s with hzero | hpos
  · rw [hv.eq_zero hzero]
    exact hdone
  · obtain ⟨m, e, pos, rfl, -, -, -⟩ := hv.eq_finite hpos hs
    exact hdone

/-- The sum of two finite numbers above zero. -/
theorem packs_add_pos {m e m' e' : Nat} (pos : 0 < m) (pos' : 0 < m') :
    Packs (add binary64 (.finite (signOf false) m ((e : Int) - 1074) pos)
        (.finite (signOf false) m' ((e' : Int) - 1074) pos')) false
      (double.nearest (m * 2 ^ e + m' * 2 ^ e') (2 ^ 1074)) := by
  obtain ⟨i, hi⟩ : ∃ i, i = min e e' := ⟨_, rfl⟩
  obtain ⟨k, hk⟩ : ∃ k, k = e - i := ⟨_, rfl⟩
  obtain ⟨k', hk'⟩ : ∃ k, k = e' - i := ⟨_, rfl⟩
  have hleast : min ((e : Int) - 1074) (e' - 1074) = (i : Int) - 1074 := by omega
  have hshift : ((e : Int) - 1074 - (i - 1074)).toNat = k := by omega
  have hshift' : ((e' : Int) - 1074 - (i - 1074)).toNat = k' := by omega
  have hpos : 0 < m * 2 ^ k + m' * 2 ^ k' :=
    Nat.add_pos_left (Nat.mul_pos pos (Nat.two_pow_pos k)) _
  have hvalue : (m * 2 ^ k + m' * 2 ^ k') * 2 ^ i * 2 ^ 1074 =
      (m * 2 ^ e + m' * 2 ^ e') * 2 ^ 1074 := by
    rw [Nat.add_mul _ _ (2 ^ i), Nat.mul_assoc m, Nat.mul_assoc m', ← pow_add, ← pow_add,
      show k + i = e by omega, show k' + i = e' by omega]
  have hexponent : (i : Int) - 1074 = i - (1074 : Nat) := rfl
  have hround := packs_round false hpos (pow_pos Nat.two_pos 1074) hexponent hvalue
  unfold add UnpackedFloat.normalize decreaseExponent
  dsimp only
  rw [hleast, hshift, hshift', Nat.shiftLeft_eq, Nat.shiftLeft_eq,
    show (signOf false).apply (m * 2 ^ k : Nat) + (signOf false).apply (m' * 2 ^ k' : Nat) =
      ((m * 2 ^ k + m' * 2 ^ k' : Nat) : Int) from rfl,
    Int.compare_eq_gt.2 (Int.natCast_pos.2 hpos)]
  exact hround

/-- The sum of two finite numbers, of which only a zero may have a negative sign. -/
theorem packs_add (hu : Reads u a r) (hv : Reads v b s) (hr : r < double.infinity)
    (hs : s < double.infinity) (ha : a = false ∨ r = 0) (hb : b = false ∨ s = 0) :
    Packs (add binary64 u v) (a && b) (double.nearest (units r + units s) (2 ^ 1074)) := by
  have hzero : units 0 = 0 := rfl
  rcases Nat.eq_zero_or_pos r with rfl | hrpos
  · rw [hzero, Nat.zero_add, nearest_units hs.le, hu.eq_zero rfl]
    rcases Nat.eq_zero_or_pos s with rfl | hspos
    · rw [hv.eq_zero rfl, add_zero_zero]
      exact packs_zero _
    · obtain rfl : b = false := hb.resolve_right hspos.ne'
      obtain ⟨m, e, pos, rfl, -, -, -⟩ := hv.eq_finite hspos hs
      rw [Bool.and_false]
      exact hv.packs hs.le
  · obtain rfl : a = false := ha.resolve_right hrpos.ne'
    rcases Nat.eq_zero_or_pos s with rfl | hspos
    · obtain ⟨m, e, pos, rfl, -, -, -⟩ := hu.eq_finite hrpos hr
      rw [hzero, Nat.add_zero, nearest_units hr.le, hv.eq_zero rfl]
      exact hu.packs hr.le
    · obtain rfl : b = false := hb.resolve_right hspos.ne'
      obtain ⟨m, e, pos, rfl, rfl, hm, hfull⟩ := hu.eq_finite hrpos hr
      obtain ⟨m', e', pos', rfl, rfl, hm', hfull'⟩ := hv.eq_finite hspos hs
      rw [units_eq hm hfull, units_eq hm' hfull']
      exact packs_add_pos pos pos'

/-- A sum with infinity, or with what is no number, is not finite either. -/
theorem packs_add_infinity (hu : Reads u a r) (hv : Reads v b s)
    (h : double.infinity ≤ r ∨ double.infinity ≤ s) (ha : a = false ∨ r ≠ double.infinity)
    (hb : b = false ∨ s ≠ double.infinity) :
    Packs (add binary64 u v) false double.infinity ∨
      Packs (add binary64 u v) false (double.infinity + 2 ^ 51) := by
  have hinf : double.infinity = 2047 * 2 ^ 52 := rfl
  cases hu with
  | nan => exact .inr packs_notANumber
  | infinity =>
    obtain rfl : a = false := by simpa using ha
    cases hv with
    | nan => exact .inr packs_notANumber
    | infinity =>
      obtain rfl : b = false := by simpa using hb
      exact .inl (packs_infinity false)
    | zero => exact .inl (packs_infinity false)
    | finite => exact .inl (packs_infinity false)
  | zero =>
    cases hv with
    | nan => exact .inr packs_notANumber
    | infinity =>
      obtain rfl : b = false := by simpa using hb
      exact .inl (packs_infinity false)
    | zero => omega
    | finite => omega
  | finite =>
    cases hv with
    | nan => exact .inr packs_notANumber
    | infinity =>
      obtain rfl : b = false := by simpa using hb
      exact .inl (packs_infinity false)
    | zero => omega
    | finite => omega

end

end Rank

end VirtualPeople
