import VirtualPeople.Proofs.Number.Single
import VirtualPeople.Proofs.Number.Value

/-!
# Operations in units

A quotient that is a double is the nearest double to itself (`nearest_of_units`), so a difference or
a product of doubles that are not below zero is exact if it is a double (`IsUnits.sub`,
`IsUnits.mul`), and a product that is none is rounded (`IsUnits.mul_nearest`). A word of 53 bits is
a double (`isUnits_toFloat`), and a cast to a word cuts off the fraction (`IsUnits.toNat_toUInt64`).
The whole part and the fraction of a double are doubles themselves (`IsUnits.fits_whole`,
`IsUnits.fits_rest`), for they keep a part of its significand.
-/

namespace VirtualPeople

open Format (double)

namespace Rank

open Float.Model (UnpackedFloat)
open Float.Model.Format (binary64)
open Float.Model.UnpackedFloat

section

variable {u v : UnpackedFloat} {a b : Bool} {r s : Nat}

theorem sub_zero_zero (a b : Bool) : sub binary64 (.zero (signOf a)) (.zero (signOf b)) =
    .zero (signOf (a && !b)) := by
  cases a <;> cases b <;> rfl

/-- The difference of two finite numbers above zero, the second not larger. -/
theorem packs_sub_pos {m e m' e' : Nat} (pos : 0 < m) (pos' : 0 < m')
    (h : m' * 2 ^ e' ≤ m * 2 ^ e) :
    Packs (sub binary64 (.finite (signOf false) m ((e : Int) - 1074) pos)
        (.finite (signOf false) m' ((e' : Int) - 1074) pos')) false
      (double.nearest (m * 2 ^ e - m' * 2 ^ e') (2 ^ 1074)) := by
  obtain ⟨i, hi⟩ : ∃ i, i = min e e' := ⟨_, rfl⟩
  obtain ⟨k, rfl⟩ : ∃ k, e = k + i := ⟨e - i, by omega⟩
  obtain ⟨k', rfl⟩ : ∃ k, e' = k + i := ⟨e' - i, by omega⟩
  have hleast : min (((k + i : Nat) : Int) - 1074) ((k' + i : Nat) - 1074) = (i : Int) - 1074 := by
    omega
  have hshift : (((k + i : Nat) : Int) - 1074 - (i - 1074)).toNat = k := by omega
  have hshift' : (((k' + i : Nat) : Int) - 1074 - (i - 1074)).toNat = k' := by omega
  have hunits : m * 2 ^ (k + i) - m' * 2 ^ (k' + i) = (m * 2 ^ k - m' * 2 ^ k') * 2 ^ i := by
    rw [pow_add, pow_add, ← Nat.mul_assoc, ← Nat.mul_assoc, Nat.sub_mul]
  have hle : m' * 2 ^ k' ≤ m * 2 ^ k := by
    rw [pow_add, pow_add, ← Nat.mul_assoc, ← Nat.mul_assoc] at h
    exact Nat.le_of_mul_le_mul_right h (Nat.two_pow_pos i)
  have happly : (signOf false).apply (m * 2 ^ k : Nat) - (signOf false).apply (m' * 2 ^ k' : Nat) =
      ((m * 2 ^ k - m' * 2 ^ k' : Nat) : Int) := (Int.ofNat_sub hle).symm
  unfold sub UnpackedFloat.normalize decreaseExponent
  dsimp only
  rw [hleast, hshift, hshift', Nat.shiftLeft_eq, Nat.shiftLeft_eq, happly, hunits]
  generalize m * 2 ^ k - m' * 2 ^ k' = d
  rcases Nat.eq_zero_or_pos d with rfl | hpos
  · rw [Nat.zero_mul]
    exact packs_zero false
  · have hexponent : (i : Int) - 1074 = i - (1074 : Nat) := rfl
    have hround := packs_round false hpos (pow_pos Nat.two_pos 1074) hexponent rfl
    rw [Int.compare_eq_gt.2 (Int.natCast_pos.2 hpos)]
    exact hround

/-- The difference of two finite numbers, of which only a zero may have a negative sign. -/
theorem packs_sub (hu : Reads u a r) (hv : Reads v b s) (hr : r < double.infinity) (hsr : s ≤ r)
    (ha : a = false ∨ r = 0) (hb : b = false ∨ s = 0) :
    Packs (sub binary64 u v) (a && !b) (double.nearest (units r - units s) (2 ^ 1074)) := by
  have hzero : units 0 = 0 := rfl
  rcases Nat.eq_zero_or_pos s with rfl | hspos
  · rw [hzero, Nat.sub_zero, nearest_units hr.le, hv.eq_zero rfl]
    rcases Nat.eq_zero_or_pos r with rfl | hrpos
    · rw [hu.eq_zero rfl, sub_zero_zero]
      exact packs_zero _
    · obtain rfl : a = false := ha.resolve_right hrpos.ne'
      obtain ⟨m, e, pos, rfl, -, -, -⟩ := hu.eq_finite hrpos hr
      exact hu.packs hr.le
  · obtain rfl : a = false := ha.resolve_right (by omega)
    obtain rfl : b = false := hb.resolve_right hspos.ne'
    obtain ⟨m, e, pos, rfl, heq, hm, hfull⟩ := hu.eq_finite (hspos.trans_le hsr) hr
    obtain ⟨m', e', pos', rfl, heq', hm', hfull'⟩ := hv.eq_finite hspos (hsr.trans_lt hr)
    have hle := units_mono hsr
    rw [heq, heq', units_eq hm hfull, units_eq hm' hfull'] at hle ⊢
    exact packs_sub_pos pos pos' hle

theorem sign_mul (a b : Bool) : signOf a * signOf b = signOf (a ^^ b) := by
  cases a <;> cases b <;> rfl

/-- The product of two finite numbers, the second with a full significand. -/
theorem packs_mul (hu : Reads u a r) (hv : Reads v b s) (hr : r < double.infinity)
    (hs : 2 ^ 52 ≤ s) (hs' : s < double.infinity) :
    Packs (mul binary64 u v) (a ^^ b) (double.nearest (units r * units s) (2 ^ 2148)) := by
  obtain ⟨m', e', pos', rfl, heq', hm', hfull'⟩ := hv.eq_finite (by omega) hs'
  rcases Nat.eq_zero_or_pos r with rfl | hpos
  · have hdone := packs_zero (a ^^ b)
    rw [← sign_mul] at hdone
    rw [hu.eq_zero rfl, show units 0 = 0 from rfl, Nat.zero_mul]
    exact hdone
  · obtain ⟨m, e, pos, rfl, heq, hm, hfull⟩ := hu.eq_finite hpos hr
    rw [heq, heq', units_eq hm hfull, units_eq hm' hfull']
    have hvalue : m * m' * 2 ^ (e + e') * 2 ^ 2148 =
        m * 2 ^ e * (m' * 2 ^ e') * (1 * 2 ^ 2148) := by
      generalize 2 ^ 2148 = d
      ring
    have hbits : 2 ^ 52 ≤ m * m' / 1 := by
      rw [Nat.div_one]
      have hlarge : 2 ^ 52 ≤ m' := by omega
      exact hlarge.trans (Nat.le_mul_of_pos_left m' pos)
    have hround := packs_roundWithAccuracy (a ^^ b) Nat.one_pos (pow_pos Nat.two_pos 2148)
      (by push_cast; omega : (e : Int) - 1074 + (e' - 1074) = (e + e' : Nat) - (2148 : Nat)) hvalue
      (.inr hbits)
    rw [Nat.div_one, Nat.mod_one] at hround
    unfold mul
    dsimp only
    rw [sign_mul]
    exact hround

theorem mantissa_shiftRight (m j : Nat) :
    (ExtendedMantissa.ofMantissaAndAccuracy m .exact >>> j).mantissa = m / 2 ^ j := by
  have h := ((Represents.ofFraction m Nat.one_pos).shiftRight Nat.one_pos j).mantissa
  rw [Nat.div_one, Nat.mod_one, Nat.one_mul] at h
  exact h

/-- A number above zero is cut off to a natural. -/
theorem roundToInt_eq (m e : Nat) :
    roundToInt (signOf false) m ((e : Int) - 1074) = (m * 2 ^ e / 2 ^ 1074 : Nat) := by
  unfold roundToInt decreaseExponent shiftToExponent
  dsimp only
  rw [mantissa_shiftRight, Nat.shiftLeft_eq]
  rcases Nat.lt_or_ge e 1074 with he | he
  · have hleft : ((e : Int) - 1074 - 0).toNat = 0 := by omega
    have hright : (0 - ((e : Int) - 1074 - (0 : Nat))).toNat = 1074 - e := by omega
    have hcancel : m * 2 ^ e / (2 ^ (1074 - e) * 2 ^ e) = m / 2 ^ (1074 - e) :=
      Nat.mul_div_mul_right _ _ (Nat.two_pow_pos e)
    rw [← pow_add, Nat.sub_add_cancel he.le] at hcancel
    rw [hleft, hright, pow_zero, Nat.mul_one, hcancel]
    rfl
  · have hleft : ((e : Int) - 1074 - 0).toNat = e - 1074 := by omega
    have hright : (0 - ((e : Int) - 1074 - (e - 1074 : Nat))).toNat = 0 := by omega
    have hcancel : m * 2 ^ (e - 1074) * 2 ^ 1074 / 2 ^ 1074 = m * 2 ^ (e - 1074) :=
      Nat.mul_div_cancel _ (pow_pos Nat.two_pos 1074)
    rw [Nat.mul_assoc, ← pow_add, Nat.sub_add_cancel he] at hcancel
    rw [hleft, hright, pow_zero, Nat.div_one, hcancel]
    rfl

/-- A finite number, of which only a zero may have a negative sign, is cut off to a natural,
whatever infinities are. -/
theorem toInt_reads (hu : Reads u a r) (hr : r < double.infinity) (ha : a = false ∨ r = 0)
    (least largest : Int) : u.toInt least largest = (units r / 2 ^ 1074 : Nat) := by
  rcases Nat.eq_zero_or_pos r with rfl | hpos
  · rw [hu.eq_zero rfl, show units 0 = 0 from rfl, Nat.zero_div]
    rfl
  · obtain rfl : a = false := ha.resolve_right hpos.ne'
    obtain ⟨m, e, pos, rfl, rfl, hm, hfull⟩ := hu.eq_finite hpos hr
    rw [units_eq hm hfull]
    exact roundToInt_eq m e

/-- As a word it is the largest one if it is too large. -/
theorem toNat_toUInt64_reads (hu : Reads u a r) (hr : r < double.infinity)
    (ha : a = false ∨ r = 0) :
    (UnpackedFloat.toUInt64 u).toNat = min (2 ^ 64 - 1) (units r / 2 ^ 1074) := by
  have htoInt := toInt_reads hu hr ha 0 (UInt64.size - 1)
  unfold UnpackedFloat.toUInt64 UInt64.ofNatClamp
  rw [htoInt, Int.toNat_natCast]
  generalize units r / 2 ^ 1074 = n
  have hsize : UInt64.size = 2 ^ 64 := rfl
  split_ifs with hfits
  · rw [UInt64.toNat_ofNatLT]
    omega
  · rw [UInt64.toNat_ofNatLT]
    omega

end

end Rank

/-- A quotient that is a double is not rounded. -/
theorem nearest_of_units {num den r : Nat} (hden : 0 < den) (hr : r ≤ double.infinity)
    (h : num * 2 ^ 1074 = units r * den) : double.nearest num den = r :=
  Nat.le_antisymm (nearest_le hden h.le) (le_nearest hden hr h.ge)

/-- There is a finite double of so many units. -/
def Fits (u : Nat) : Prop := ∃ r < double.infinity, units r = u

/-- At most 53 bits, below the first number that is too large. -/
theorem fits_shifted {m e : Nat} (hm : m < 2 ^ 53) (h : m * 2 ^ e < 2 ^ 1024 * 2 ^ 1074) :
    Fits (m * 2 ^ e) := by
  obtain ⟨r, hr⟩ := exists_rank hm e
  have hunits : units double.infinity = 2 ^ 1024 * 2 ^ 1074 := by decide +kernel
  refine ⟨r, lt_of_units_lt ?_, hr⟩
  rwa [hr, hunits]

/-- A quotient up to a power of two is not rounded to more. -/
theorem nearest_le_pow {num den k : Nat} (hden : 0 < den) (hk : k < 1024) (h : num ≤ 2 ^ k * den) :
    double.nearest num den < double.infinity ∧
      units (double.nearest num den) ≤ 2 ^ k * 2 ^ 1074 := by
  obtain ⟨r, hr, hunits⟩ : Fits (1 * 2 ^ (k + 1074)) := by
    refine fits_shifted (by decide) ?_
    rw [Nat.one_mul, ← pow_add]
    exact pow_lt_pow_right₀ one_lt_two (by omega)
  rw [Nat.one_mul, pow_add] at hunits
  have hle : double.nearest num den ≤ r := by
    refine nearest_le hden ?_
    rw [hunits, Nat.mul_right_comm]
    exact Nat.mul_le_mul_right _ h
  exact ⟨hle.trans_lt hr, (units_mono hle).trans_eq hunits⟩

/-- A finite double that is not below zero is so many units. -/
structure IsUnits (x : Float) (u : Nat) : Prop where
  isFinite : isFinite x
  not_neg : ¬ x < 0.0
  units_eq : units (rankOf x) = u

namespace IsUnits

variable {x y : Float} {u v w : Nat}

theorem rank_lt (h : IsUnits x u) : rankOf x < double.infinity := of_decide_eq_true h.isFinite

theorem sign (h : IsUnits x u) : isNegative x = false ∨ rankOf x = 0 := by
  rcases not_lt_zero h.not_neg with hpositive | hzero | hlarge
  · exact .inl hpositive
  · exact .inr hzero
  · exact absurd h.rank_lt (by omega)

theorem of_sign {r : Nat} (hrank : rankOf x = r) (hr : r < double.infinity)
    (hsign : isNegative x = false ∨ r = 0) : IsUnits x (units r) := by
  refine ⟨decide_eq_true (by omega), fun hneg => ?_, by rw [hrank]⟩
  obtain ⟨-, hnegative, hpos⟩ := double_lt_zero_iff.1 hneg
  rcases hsign with hpositive | hzero
  · exact absurd (hnegative.symm.trans hpositive) nofun
  · omega

/-- The units that fit a double are those of one. -/
theorem exists_double (h : Fits u) : ∃ x, IsUnits x u := by
  obtain ⟨r, hr, rfl⟩ := h
  obtain ⟨hsign, hrank⟩ := sign_and_rank_doubleOf false hr.le
  exact ⟨doubleOf false r, of_sign hrank hr (.inl hsign)⟩

/-- A difference that fits a double is exact. -/
theorem sub (hx : IsUnits x u) (hy : IsUnits y v) (hle : v ≤ u) (hfits : Fits (u - v)) :
    IsUnits (x - y) (u - v) := by
  obtain rfl := hx.units_eq
  obtain rfl := hy.units_eq
  obtain ⟨r, hr, hunits⟩ := hfits
  have hranks := le_of_units_le hy.rank_lt.le hx.rank_lt.le hle
  have hpacks := Rank.packs_sub (reads_double x) (reads_double y) hx.rank_lt hranks hx.sign hy.sign
  rw [← hunits, nearest_units hr.le] at hpacks
  have hlt : r < 2 ^ 63 := hr.trans (by decide)
  have hmodel : (x - y).toModel = .pack (.sub .binary64 x.toModel.unpack y.toModel.unpack) := rfl
  obtain ⟨hsign, hrank⟩ := sign_and_rank hmodel hpacks hlt
  rw [← hunits]
  refine of_sign hrank hr ?_
  rcases hx.sign with hpositive | hzero
  · left
    rw [hsign, hpositive, Bool.false_and]
  · right
    have hnone : units r = 0 := by
      rw [hunits, hzero, show units 0 = 0 from rfl, Nat.zero_sub]
    exact Nat.eq_zero_of_not_pos fun hpos => (units_pos hpos).ne' hnone

/-- A product that is not too large is rounded to the nearest double. -/
theorem mul_nearest (hx : IsUnits x u) (hy : IsUnits y v) (hv : 2 ^ 52 ≤ v)
    (hlt : double.nearest (u * v) (2 ^ 2148) < double.infinity) :
    IsUnits (x * y) (units (double.nearest (u * v) (2 ^ 2148))) := by
  obtain rfl := hx.units_eq
  obtain rfl := hy.units_eq
  have hnormal : 2 ^ 52 ≤ rankOf y := by
    by_contra hlow
    rw [units, if_pos (by omega)] at hv
    exact hlow hv
  have hpacks := Rank.packs_mul (reads_double x) (reads_double y) hx.rank_lt hnormal hy.rank_lt
  have hmodel : (x * y).toModel = .pack (.mul .binary64 x.toModel.unpack y.toModel.unpack) := rfl
  obtain ⟨hsign, hrank⟩ := sign_and_rank hmodel hpacks (hlt.trans (by decide))
  refine of_sign hrank hlt ?_
  rw [hsign, hy.sign.resolve_right (by omega), Bool.xor_false]
  refine hx.sign.imp_right fun hzero => ?_
  rw [hzero, show units 0 = 0 from rfl, Nat.zero_mul]
  rfl

/-- A product that fits a double is exact. -/
theorem mul (hx : IsUnits x u) (hy : IsUnits y v) (hv : 2 ^ 52 ≤ v) (hfits : Fits w)
    (h : u * v = w * 2 ^ 1074) : IsUnits (x * y) w := by
  obtain ⟨r, hr, rfl⟩ := hfits
  have hnearest : double.nearest (u * v) (2 ^ 2148) = r := by
    refine nearest_of_units (pow_pos Nat.two_pos 2148) hr.le ?_
    rw [h, Nat.mul_assoc, ← pow_add]
  have hround := hx.mul_nearest hy hv (hnearest.trans_lt hr)
  rwa [hnearest] at hround

/-- A quotient that is not too large is rounded to the nearest double. -/
theorem div_nearest (hx : IsUnits x u) (hy : IsUnits y v) (hv : 0 < v)
    (hlt : double.nearest u v < double.infinity) :
    IsUnits (x / y) (units (double.nearest u v)) := by
  obtain rfl := hx.units_eq
  obtain rfl := hy.units_eq
  have hpos : 0 < rankOf y := by
    refine Nat.pos_of_ne_zero fun hzero => ?_
    rw [hzero, show units 0 = 0 from rfl] at hv
    exact Nat.lt_irrefl 0 hv
  obtain ⟨hsign, hrank⟩ := double_div hx.isFinite hpos hy.isFinite
  refine of_sign hrank hlt ?_
  rw [hsign, hy.sign.resolve_right hpos.ne', Bool.xor_false]
  refine hx.sign.imp_right fun hzero => ?_
  rw [hzero]
  rfl

theorem lt_infinity (h : IsUnits x u) : u < 2 ^ 1024 * 2 ^ 1074 := by
  have hunits : units double.infinity = 2 ^ 1024 * 2 ^ 1074 := by decide +kernel
  by_contra hge
  rw [← h.units_eq, ← hunits] at hge
  exact absurd (le_of_units_le le_rfl h.rank_lt.le (Nat.not_lt.1 hge)) (Nat.not_le.2 h.rank_lt)

/-- The whole part of a double is one. -/
theorem fits_whole (h : IsUnits x u) : Fits (u / 2 ^ 1074 * 2 ^ 1074) := by
  have hlt := (Nat.div_mul_le_self u (2 ^ 1074)).trans_lt h.lt_infinity
  obtain ⟨m, e, -, -, hu, hm, -⟩ := exists_units (rankOf x)
  rw [h.units_eq] at hu
  rcases Nat.lt_or_ge e 1074 with he | he
  · refine fits_shifted (lt_of_le_of_lt (Nat.div_le_of_le_mul ?_) hm) hlt
    rw [hu, Nat.mul_comm]
    exact Nat.mul_le_mul_right m (pow_le_pow_right₀ one_le_two he.le)
  · have hwhole : 2 ^ 1074 ∣ u := hu ▸ (pow_dvd_pow 2 he).mul_left m
    rw [Nat.div_mul_cancel hwhole, hu] at hlt ⊢
    exact fits_shifted hm hlt

/-- The fraction of a double is one, also when a power of two scales it. -/
theorem fits_rest (h : IsUnits x u) {k : Nat} (hk : k ≤ 1024) :
    Fits (u % 2 ^ 1074 * 2 ^ k) := by
  have hlt : u % 2 ^ 1074 * 2 ^ k < 2 ^ 1024 * 2 ^ 1074 := by
    have hrest : u % 2 ^ 1074 < 2 ^ 1074 := Nat.mod_lt u (pow_pos Nat.two_pos 1074)
    have hpow : 2 ^ k ≤ 2 ^ 1024 := pow_le_pow_right₀ one_le_two hk
    generalize 2 ^ 1074 = d at hrest ⊢
    generalize 2 ^ 1024 = b at hpow ⊢
    calc u % d * 2 ^ k < d * 2 ^ k := Nat.mul_lt_mul_of_pos_right hrest (Nat.two_pow_pos k)
      _ ≤ d * b := Nat.mul_le_mul_left d hpow
      _ = b * d := Nat.mul_comm d b
  obtain ⟨m, e, -, -, hu, hm, -⟩ := exists_units (rankOf x)
  rw [h.units_eq] at hu
  rcases Nat.lt_or_ge e 1074 with he | he
  · obtain ⟨d, hd⟩ : ∃ d, 1074 = d + e := ⟨1074 - e, by omega⟩
    have hrest : u % 2 ^ 1074 = m % 2 ^ d * 2 ^ e := by
      rw [hu, hd, pow_add, Nat.mul_mod_mul_right]
    rw [hrest, Nat.mul_assoc, ← pow_add] at hlt ⊢
    exact fits_shifted ((Nat.mod_le _ _).trans_lt hm) hlt
  · have hwhole : u % 2 ^ 1074 = 0 :=
      Nat.mod_eq_zero_of_dvd (hu ▸ (pow_dvd_pow 2 he).mul_left m)
    rw [hwhole, Nat.zero_mul] at hlt ⊢
    exact ⟨0, by decide, rfl⟩

/-- The word of a number is what it is cut off to. -/
theorem toNat_toUInt64 (h : IsUnits x u) :
    x.toUInt64.toNat = min (2 ^ 64 - 1) (u / 2 ^ 1074) := by
  rw [← h.units_eq]
  exact Rank.toNat_toUInt64_reads (reads_double x) h.rank_lt h.sign

theorem valueOf_eq (h : IsUnits x u) : valueOf x = (u : ℚ) / 2 ^ 1074 := by
  rw [valueOf_of_not_neg (isNumber_of_isFinite h.isFinite) h.not_neg, h.units_eq]

/-- So many times `2 ^ 1074` units are a whole number. -/
theorem valueOf_natCast {n : Nat} (h : IsUnits x (n * 2 ^ 1074)) : valueOf x = n := by
  rw [h.valueOf_eq, Nat.cast_mul, Nat.cast_pow, Nat.cast_ofNat]
  exact mul_div_cancel_right₀ _ (pow_ne_zero _ two_ne_zero)

theorem floor_valueOf (h : IsUnits x u) : ⌊valueOf x⌋ = (u / 2 ^ 1074 : Nat) := by
  have hfloor := Rat.floor_natCast_div_natCast u (2 ^ 1074)
  rwa [Nat.cast_pow, Nat.cast_ofNat, ← h.valueOf_eq, ← Int.natCast_ediv] at hfloor

end IsUnits

/-- A finite double is told by its value to be so many units. -/
theorem isUnits_of_valueOf {x : Float} {u : Nat} (hx : isFinite x)
    (h : valueOf x = (u : ℚ) / 2 ^ 1074) : IsUnits x u := by
  have hneg : ¬ x < 0.0 := by
    rw [← valueOf_neg_iff hx, h, not_lt]
    positivity
  rw [valueOf_of_not_neg (isNumber_of_isFinite hx) hneg,
    div_left_inj' (pow_ne_zero _ two_ne_zero)] at h
  exact ⟨hx, hneg, Nat.cast_inj.1 h⟩

theorem isUnits_of_natCast {x : Float} {n : Nat} (hx : isFinite x) (h : valueOf x = n) :
    IsUnits x (n * 2 ^ 1074) := by
  refine isUnits_of_valueOf hx ?_
  rw [h, Nat.cast_mul, Nat.cast_pow, Nat.cast_ofNat]
  exact (mul_div_cancel_right₀ _ (pow_ne_zero _ two_ne_zero)).symm

theorem isUnits_of_nearest {x : Float} {n : Nat} (hn : n < 2 ^ 53) (hsign : isNegative x = false)
    (hrank : rankOf x = double.nearest n 1) : IsUnits x (n * 2 ^ 1074) := by
  obtain ⟨r, hr, hunits⟩ : Fits (n * 2 ^ 1074) := by
    refine fits_shifted hn (Nat.mul_lt_mul_of_pos_right ?_ (pow_pos Nat.two_pos 1074))
    exact hn.trans_le (pow_le_pow_right₀ one_le_two (by decide))
  rw [nearest_of_units Nat.one_pos hr.le (by rw [hunits, Nat.mul_one])] at hrank
  rw [← hunits]
  exact .of_sign hrank hr (.inl hsign)

/-- A word of 53 bits is a double. -/
theorem isUnits_toFloat {w : UInt64} {n : Nat} (hw : w.toNat = n) (hn : n < 2 ^ 53) :
    IsUnits w.toFloat (n * 2 ^ 1074) := by
  obtain ⟨hsign, hrank⟩ := double_ofNat w
  rw [hw] at hrank
  exact isUnits_of_nearest hn hsign hrank

end VirtualPeople
