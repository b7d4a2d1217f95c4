import VirtualPeople.Number.Binary
import Mathlib.Tactic.Ring
import Mathlib.Tactic.SplitIfs

/-!
# Rounding in a format

A quotient has one last place among the numbers of a format, which grows with the quotient
(`Format.IsPlace.mono`), and it is rounded there (`Format.nearest_eq`). So a larger quotient is not
rounded to less (`Format.nearest_mono`). Places are counted from the lowest of the format.
-/

namespace VirtualPeople

open Format (double single roundEven scaled)

theorem div_eq_div_of_mul_eq {a b c d : Nat} (hb : 0 < b) (hd : 0 < d) (h : a * d = c * b) :
    a / b = c / d := by
  calc a / b = a * d / (b * d) := (Nat.mul_div_mul_right a b hd).symm
    _ = c * b / (d * b) := by rw [h, Nat.mul_comm b d]
    _ = c / d := Nat.mul_div_mul_right c d hb

theorem roundEven_mul_right (n d : Nat) {k : Nat} (hk : 0 < k) :
    roundEven (n * k) (d * k) = roundEven n d := by
  unfold roundEven
  rw [Nat.mul_div_mul_right n d hk, Nat.mul_mod_mul_right]
  have hlt : 2 * (n % d * k) > d * k ↔ 2 * (n % d) > d := by
    rw [← Nat.mul_assoc]
    exact Nat.mul_lt_mul_right hk
  have heq : 2 * (n % d * k) = d * k ↔ 2 * (n % d) = d := by
    rw [← Nat.mul_assoc]
    exact Nat.mul_left_inj hk.ne'
  simp only [hlt, heq]

theorem roundEven_congr {a b c d : Nat} (hb : 0 < b) (hd : 0 < d) (h : a * d = c * b) :
    roundEven a b = roundEven c d := by
  rw [← roundEven_mul_right a b hd, ← roundEven_mul_right c d hb, h, Nat.mul_comm b d]

theorem div_le_roundEven (n d : Nat) : n / d ≤ roundEven n d := by
  unfold roundEven
  simp only
  split_ifs <;> omega

theorem roundEven_le_succ (n d : Nat) : roundEven n d ≤ n / d + 1 := by
  unfold roundEven
  simp only
  split_ifs <;> omega

theorem le_roundEven {m n d : Nat} (hd : 0 < d) (h : m * d ≤ n) : m ≤ roundEven n d :=
  ((Nat.le_div_iff_mul_le hd).2 h).trans (div_le_roundEven n d)

theorem roundEven_le {m n d : Nat} (hd : 0 < d) (h : n ≤ m * d) : roundEven n d ≤ m := by
  have hdiv := Nat.div_add_mod n d
  unfold roundEven
  simp only
  split_ifs with hup
  · have hlt : n / d < m := by
      refine Nat.lt_of_mul_lt_mul_left (a := d) ?_
      rw [Nat.mul_comm d m]
      omega
    omega
  · exact Nat.div_le_of_le_mul (by rwa [Nat.mul_comm])

theorem roundEven_pos {n d : Nat} (h : d < 2 * n) : 0 < roundEven n d := by
  have hdiv := Nat.div_add_mod n d
  unfold roundEven
  simp only
  rcases Nat.eq_zero_or_pos (n / d) with hfloor | hfloor
  · rw [hfloor, Nat.mul_zero] at hdiv
    rw [if_pos (.inl (by omega))]
    omega
  · split_ifs <;> omega

theorem roundEven_mono {n d n' d' : Nat} (hd : 0 < d) (hd' : 0 < d') (h : n * d' ≤ n' * d) :
    roundEven n d ≤ roundEven n' d' := by
  have hfloor : n / d ≤ n' / d' := by
    rw [Nat.le_div_iff_mul_le hd']
    refine Nat.le_of_mul_le_mul_right ?_ hd
    calc n / d * d' * d = n / d * d * d' := Nat.mul_right_comm _ _ _
      _ ≤ n * d' := Nat.mul_le_mul_right _ (Nat.div_mul_le_self n d)
      _ ≤ n' * d := h
  rcases hfloor.lt_or_eq with hlt | heq
  · exact (roundEven_le_succ n d).trans ((Nat.succ_le_of_lt hlt).trans (div_le_roundEven n' d'))
  · have hrest : n % d * d' ≤ n' % d' * d := by
      have hn := Nat.div_add_mod n d
      have hn' := Nat.div_add_mod n' d'
      rw [← hn, ← hn', heq, Nat.add_mul, Nat.add_mul, Nat.mul_right_comm, Nat.mul_right_comm d',
        Nat.mul_comm d d'] at h
      exact Nat.add_le_add_iff_left.1 h
    have hup : d < 2 * (n % d) → d' < 2 * (n' % d') := by
      intro hlt
      refine Nat.lt_of_mul_lt_mul_right (a := d) ?_
      calc d' * d = d * d' := Nat.mul_comm _ _
        _ < 2 * (n % d) * d' := Nat.mul_lt_mul_of_pos_right hlt hd'
        _ = 2 * (n % d * d') := Nat.mul_assoc _ _ _
        _ ≤ 2 * (n' % d' * d) := Nat.mul_le_mul_left 2 hrest
        _ = 2 * (n' % d') * d := (Nat.mul_assoc _ _ _).symm
    have hhalf : 2 * (n % d) = d → d' ≤ 2 * (n' % d') := by
      intro heven
      refine Nat.le_of_mul_le_mul_right ?_ hd
      calc d' * d = 2 * (n % d) * d' := by rw [heven, Nat.mul_comm]
        _ = 2 * (n % d * d') := Nat.mul_assoc _ _ _
        _ ≤ 2 * (n' % d' * d) := Nat.mul_le_mul_left 2 hrest
        _ = 2 * (n' % d') * d := (Nat.mul_assoc _ _ _).symm
    unfold roundEven
    simp only
    rw [heq]
    split_ifs <;> omega

theorem scaled_pos {num den : Nat} (hden : 0 < den) : ∀ q : Int, 0 < (scaled num den q).2
  | .ofNat q => by
    simp only [scaled, Nat.shiftLeft_eq]
    exact Nat.mul_pos hden (Nat.two_pow_pos q)
  | .negSucc _ => hden

namespace Format

/-- How far the lowest place of a format is below one. -/
def low (f : Format) : Nat := (-f.lowest).toNat

/-- A format whose significands have a bit and whose lowest place is not above one. -/
structure Proper (f : Format) : Prop where
  bits : 0 < f.bits
  lowest : f.lowest ≤ 0

theorem double_proper : double.Proper := ⟨by decide, by decide⟩

theorem single_proper : single.Proper := ⟨by decide, by decide⟩

theorem low_double : double.low = 1074 := rfl

theorem low_single : single.low = 149 := rfl

/-- The last place of a quotient in a format, counted from the lowest: from there on it has all the
bits, or fewer if there is no lower place. -/
structure IsPlace (f : Format) (num den e : Nat) : Prop where
  lt : num * 2 ^ f.low < den * 2 ^ (e + f.bits)
  full : e = 0 ∨ den * 2 ^ (e + (f.bits - 1)) ≤ num * 2 ^ f.low

variable {f : Format} {num den num' den' e e' : Nat}

namespace IsPlace

theorem pos (h : f.IsPlace num den e) : 0 < den := by
  rcases Nat.eq_zero_or_pos den with rfl | hpos
  · have := h.lt
    rw [Nat.zero_mul] at this
    omega
  · exact hpos

/-- A larger quotient has no lower place. -/
theorem mono (h : f.IsPlace num den e) (h' : f.IsPlace num' den' e')
    (hle : num * den' ≤ num' * den) : e ≤ e' := by
  rcases h.full with rfl | hfull
  · exact Nat.zero_le e'
  · have hpow : 2 ^ (e + (f.bits - 1)) < 2 ^ (e' + f.bits) := by
      refine Nat.lt_of_mul_lt_mul_left (a := den * den') ?_
      calc den * den' * 2 ^ (e + (f.bits - 1)) = den * 2 ^ (e + (f.bits - 1)) * den' :=
            Nat.mul_right_comm _ _ _
        _ ≤ num * 2 ^ f.low * den' := Nat.mul_le_mul_right _ hfull
        _ = num * den' * 2 ^ f.low := Nat.mul_right_comm _ _ _
        _ ≤ num' * den * 2 ^ f.low := Nat.mul_le_mul_right _ hle
        _ = num' * 2 ^ f.low * den := Nat.mul_right_comm _ _ _
        _ < den' * 2 ^ (e' + f.bits) * den := Nat.mul_lt_mul_of_pos_right h'.lt h.pos
        _ = den * den' * 2 ^ (e' + f.bits) := by rw [Nat.mul_comm _ den, Nat.mul_assoc]
    have := (Nat.pow_lt_pow_iff_right (by omega)).1 hpow
    omega

theorem unique (h : f.IsPlace num den e) (h' : f.IsPlace num den e') : e = e' :=
  Nat.le_antisymm (h.mono h' le_rfl) (h'.mono h le_rfl)

theorem scale_pos (h : f.IsPlace num den e) : 0 < den * 2 ^ e :=
  Nat.mul_pos h.pos (Nat.two_pow_pos e)

theorem floor_lt (h : f.IsPlace num den e) :
    num * 2 ^ f.low / (den * 2 ^ e) < 2 ^ f.bits := by
  rw [Nat.div_lt_iff_lt_mul h.scale_pos, Nat.mul_left_comm, ← pow_add,
    Nat.add_comm f.bits]
  exact h.lt

theorem le_floor (h : f.IsPlace num den e) (he : e ≠ 0) :
    2 ^ (f.bits - 1) ≤ num * 2 ^ f.low / (den * 2 ^ e) := by
  rw [Nat.le_div_iff_mul_le h.scale_pos, Nat.mul_left_comm, ← pow_add, Nat.add_comm (f.bits - 1)]
  exact h.full.resolve_left he

end IsPlace

/-- Scaling by a place, counted from the lowest, divides the units. -/
theorem scaled_mul (low num den e : Nat) : ∀ q : Int, q = e - low →
    (scaled num den q).1 * (den * 2 ^ e) = num * 2 ^ low * (scaled num den q).2
  | .ofNat q, h => by
    obtain rfl : e = q + low := by
      simp only [Int.ofNat_eq_natCast] at h
      omega
    simp only [scaled, Nat.shiftLeft_eq]
    rw [pow_add, Nat.mul_assoc num, Nat.mul_left_comm (2 ^ low), Nat.mul_comm (2 ^ low)]
  | .negSucc q, h => by
    have hpow : 2 ^ low = 2 ^ (q + 1) * 2 ^ e := by
      rw [← pow_add]
      congr 1
      omega
    simp only [scaled, Nat.shiftLeft_eq]
    rw [hpow]
    ring

theorem isPlace_place (hf : f.Proper) (hnum : 0 < num) (hden : 0 < den) :
    ∃ e : Nat, f.place num den = e - f.low ∧ f.IsPlace num den e := by
  have hbits := hf.bits
  have hlow : (f.low : Int) = -f.lowest := Int.toNat_of_nonneg (by have := hf.lowest; omega)
  have hnum_log : 2 ^ num.log2 ≤ num := Nat.log2_self_le hnum.ne'
  have hnum_lt : num < 2 ^ (num.log2 + 1) := Nat.lt_log2_self
  have hden_log : 2 ^ den.log2 ≤ den := Nat.log2_self_le hden.ne'
  have hden_lt : den < 2 ^ (den.log2 + 1) := Nat.lt_log2_self
  obtain ⟨e, he⟩ : ∃ e, e = num.log2 + f.low - (f.bits + den.log2) := ⟨_, rfl⟩
  have hplace : f.place num den =
      if (scaled num den (e - f.low)).1 / (scaled num den (e - f.low)).2 < 2 ^ f.bits
      then (e : Int) - f.low else (e : Int) - f.low + 1 := by
    have hq : max f.lowest ((num.log2 : Int) - den.log2 - f.bits) = (e : Int) - f.low := by omega
    simp only [Format.place, hq, Nat.shiftLeft_eq, one_mul]
  have hfloor : (scaled num den (e - f.low)).1 / (scaled num den (e - f.low)).2 < 2 ^ f.bits ↔
      num * 2 ^ f.low < den * 2 ^ (e + f.bits) := by
    rw [div_eq_div_of_mul_eq (scaled_pos hden _) (Nat.mul_pos hden (Nat.two_pow_pos e))
        (scaled_mul f.low num den e _ rfl),
      Nat.div_lt_iff_lt_mul (Nat.mul_pos hden (Nat.two_pow_pos e)), Nat.mul_left_comm, ← pow_add,
      Nat.add_comm f.bits]
  split_ifs at hplace with hlt
  · refine ⟨e, hplace, hfloor.1 hlt, ?_⟩
    by_cases h0 : e = 0
    · exact .inl h0
    · right
      calc den * 2 ^ (e + (f.bits - 1)) ≤ 2 ^ (den.log2 + 1) * 2 ^ (e + (f.bits - 1)) :=
            Nat.mul_le_mul_right _ hden_lt.le
        _ = 2 ^ num.log2 * 2 ^ f.low := by
            rw [← pow_add, ← pow_add]
            congr 1
            omega
        _ ≤ num * 2 ^ f.low := Nat.mul_le_mul_right _ hnum_log
  · refine ⟨e + 1, by rw [hplace]; omega, ?_, .inr ?_⟩
    · calc num * 2 ^ f.low < 2 ^ (num.log2 + 1) * 2 ^ f.low :=
            Nat.mul_lt_mul_of_pos_right hnum_lt (Nat.two_pow_pos f.low)
        _ ≤ 2 ^ den.log2 * 2 ^ (e + 1 + f.bits) := by
            rw [← pow_add, ← pow_add]
            exact Nat.pow_le_pow_right (by omega) (by omega)
        _ ≤ den * 2 ^ (e + 1 + f.bits) := Nat.mul_le_mul_right _ hden_log
    · rw [show e + 1 + (f.bits - 1) = e + f.bits by omega]
      exact Nat.not_lt.1 (hfloor.not.1 hlt)

theorem exists_isPlace (hf : f.Proper) (num : Nat) (hden : 0 < den) :
    ∃ e, f.IsPlace num den e := by
  rcases Nat.eq_zero_or_pos num with rfl | hnum
  · refine ⟨0, ?_, .inl rfl⟩
    rw [Nat.zero_mul]
    exact Nat.mul_pos hden (Nat.two_pow_pos _)
  · obtain ⟨e, -, he⟩ := isPlace_place hf hnum hden
    exact ⟨e, he⟩

/-- The rank of what a quotient is rounded to at its last place. -/
theorem nearest_eq (hf : f.Proper) (h : f.IsPlace num den e) :
    f.nearest num den =
      min f.infinity (e * 2 ^ (f.bits - 1) + roundEven (num * 2 ^ f.low) (den * 2 ^ e)) := by
  have hden := h.pos
  rcases Nat.eq_zero_or_pos num with rfl | hnum
  · obtain rfl : e = 0 := by
      by_contra he
      have := h.le_floor he
      rw [Nat.zero_mul, Nat.zero_div] at this
      exact absurd this (Nat.not_le.2 (Nat.two_pow_pos _))
    have hround : roundEven (0 * 2 ^ f.low) (den * 2 ^ 0) ≤ 0 :=
      roundEven_le (Nat.mul_pos hden Nat.one_pos) (by omega)
    unfold Format.nearest
    rw [if_pos rfl, Nat.le_zero.1 hround]
    simp
  · obtain ⟨e', hplace, he'⟩ := isPlace_place hf hnum hden
    obtain rfl := h.unique he'
    have hround : roundEven (scaled num den (e - f.low)).1 (scaled num den (e - f.low)).2 =
        roundEven (num * 2 ^ f.low) (den * 2 ^ e) :=
      roundEven_congr (scaled_pos hden _) h.scale_pos (scaled_mul f.low num den e _ rfl)
    have hlow : (f.low : Int) = -f.lowest := Int.toNat_of_nonneg (by have := hf.lowest; omega)
    have hsteps : ((e : Int) - f.low - f.lowest).toNat = e := by omega
    unfold Format.nearest
    rw [if_neg hnum.ne', hplace]
    simp only [hround, hsteps, Nat.shiftLeft_eq]

/-- A number of the format is not rounded. -/
theorem nearest_exact (hf : f.Proper) (hden : 0 < den) {m : Nat}
    (hvalue : num * 2 ^ f.low = m * 2 ^ e * den) (hm : m < 2 ^ f.bits)
    (hfull : e = 0 ∨ 2 ^ (f.bits - 1) ≤ m) (hle : e * 2 ^ (f.bits - 1) + m ≤ f.infinity) :
    f.nearest num den = e * 2 ^ (f.bits - 1) + m := by
  have hplace : f.IsPlace num den e := by
    refine ⟨?_, hfull.imp_right fun hlarge => ?_⟩
    · rw [hvalue, Nat.mul_comm _ den, Nat.add_comm e, pow_add]
      exact Nat.mul_lt_mul_of_pos_left (Nat.mul_lt_mul_of_pos_right hm (Nat.two_pow_pos e)) hden
    · rw [hvalue, Nat.mul_comm _ den, Nat.add_comm e, pow_add]
      exact Nat.mul_le_mul_left _ (Nat.mul_le_mul_right _ hlarge)
  have hround : roundEven (num * 2 ^ f.low) (den * 2 ^ e) = m := by
    rw [hvalue, Nat.mul_assoc, Nat.mul_comm (2 ^ e)]
    exact Nat.le_antisymm (roundEven_le hplace.scale_pos le_rfl)
      (le_roundEven hplace.scale_pos le_rfl)
  rw [nearest_eq hf hplace, hround, min_eq_right hle]

theorem nearest_le_infinity (hf : f.Proper) (num : Nat) (hden : 0 < den) :
    f.nearest num den ≤ f.infinity := by
  obtain ⟨e, he⟩ := exists_isPlace hf num hden
  rw [nearest_eq hf he]
  exact min_le_left _ _

/-- A larger quotient is not rounded to less. -/
theorem nearest_mono (hf : f.Proper) (hden : 0 < den) (hden' : 0 < den')
    (h : num * den' ≤ num' * den) : f.nearest num den ≤ f.nearest num' den' := by
  obtain ⟨e, he⟩ := exists_isPlace hf num hden
  obtain ⟨e', he'⟩ := exists_isPlace hf num' hden'
  rw [nearest_eq hf he, nearest_eq hf he']
  refine min_le_min_left _ ?_
  rcases (he.mono he' h).lt_or_eq with hlt | rfl
  · have hfloor := he.floor_lt
    have hround := roundEven_le_succ (num * 2 ^ f.low) (den * 2 ^ e)
    have hfloor' := he'.le_floor (by omega)
    have hround' := div_le_roundEven (num' * 2 ^ f.low) (den' * 2 ^ e')
    have hstep : (e + 1) * 2 ^ (f.bits - 1) ≤ e' * 2 ^ (f.bits - 1) := Nat.mul_le_mul_right _ hlt
    have hpow : 2 ^ f.bits = 2 * 2 ^ (f.bits - 1) := by
      rw [← pow_succ', Nat.sub_add_cancel hf.bits]
    rw [Nat.succ_mul] at hstep
    omega
  · refine Nat.add_le_add_left (roundEven_mono he.scale_pos he'.scale_pos ?_) _
    calc num * 2 ^ f.low * (den' * 2 ^ e) = num * den' * (2 ^ f.low * 2 ^ e) :=
          Nat.mul_mul_mul_comm _ _ _ _
      _ ≤ num' * den * (2 ^ f.low * 2 ^ e) := Nat.mul_le_mul_right _ h
      _ = num' * 2 ^ f.low * (den * 2 ^ e) := Nat.mul_mul_mul_comm _ _ _ _

theorem nearest_congr (hf : f.Proper) (hden : 0 < den) (hden' : 0 < den')
    (h : num * den' = num' * den) : f.nearest num den = f.nearest num' den' :=
  Nat.le_antisymm (nearest_mono hf hden hden' h.le) (nearest_mono hf hden' hden h.ge)

/-- A significand scaled by a power of two is a quotient of naturals, with any denominator that is a
power of two. -/
theorem scaled_value (m e low : Nat) : ∀ q : Int, q = low - e →
    (scaled m 1 q).1 * 2 ^ low = m * 2 ^ e * (scaled m 1 q).2
  | .ofNat k, h => by
    obtain rfl : low = e + k := by
      simp only [Int.ofNat_eq_natCast] at h
      omega
    simp only [scaled, Nat.shiftLeft_eq]
    rw [Nat.one_mul, pow_add, Nat.mul_assoc]
  | .negSucc k, h => by
    obtain rfl : e = k + 1 + low := by omega
    simp only [scaled, Nat.shiftLeft_eq]
    rw [Nat.mul_one, Nat.mul_assoc, ← pow_add]

theorem nearestScaled_eq (hf : f.Proper) (m e low : Nat) :
    f.nearestScaled m 1 ((e : Int) - low) = f.nearest (m * 2 ^ e) (2 ^ low) := by
  have hvalue := scaled_value m e low (-((e : Int) - low)) (by omega)
  unfold Format.nearestScaled
  exact nearest_congr hf (scaled_pos Nat.one_pos _) (Nat.two_pow_pos low) hvalue

end Format

end VirtualPeople
