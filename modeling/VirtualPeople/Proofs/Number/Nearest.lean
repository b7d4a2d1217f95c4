import VirtualPeople.Proofs.Number.Places
import VirtualPeople.Proofs.Number.Units

/-!
# The nearest double

A quotient has one last place among the doubles, and its nearest double is the quotient rounded
there (`nearest_eq`), as in any format. So the nearest double grows with the quotient
(`nearest_mono`) and is on the same side of every double as the quotient (`le_nearest`,
`nearest_le`), and it is zero only for quotients up to half of the smallest number (`nearest_pos`).
Numbers are compared in units of `2 ^ -1074`.
-/

namespace VirtualPeople

open Format (double roundEven)

/-- The last place of a quotient among the doubles, counted from the lowest: from there on it has
53 bits, or fewer if there is no lower place. -/
structure IsPlace (num den e : Nat) : Prop where
  lt : num * 2 ^ 1074 < den * 2 ^ (e + 53)
  full : e = 0 ∨ den * 2 ^ (e + 52) ≤ num * 2 ^ 1074

variable {num den e : Nat}

theorem isPlace_iff : IsPlace num den e ↔ double.IsPlace num den e := by
  constructor
  · intro h
    constructor <;> rw [Format.low_double]
    · exact h.lt
    · exact h.full
  · intro h
    obtain ⟨hlt, hfull⟩ := h
    rw [Format.low_double] at hlt hfull
    exact ⟨hlt, hfull⟩

namespace IsPlace

theorem floor_lt (h : IsPlace num den e) : num * 2 ^ 1074 / (den * 2 ^ e) < 2 ^ 53 := by
  have hlt := (isPlace_iff.1 h).floor_lt
  rw [Format.low_double] at hlt
  exact hlt

theorem le_floor (h : IsPlace num den e) (he : e ≠ 0) :
    2 ^ 52 ≤ num * 2 ^ 1074 / (den * 2 ^ e) := by
  have hle := (isPlace_iff.1 h).le_floor he
  rw [Format.low_double] at hle
  exact hle

end IsPlace

theorem exists_isPlace (num : Nat) {den : Nat} (hden : 0 < den) : ∃ e, IsPlace num den e := by
  obtain ⟨e, he⟩ := Format.exists_isPlace Format.double_proper num hden
  exact ⟨e, isPlace_iff.2 he⟩

/-- The rank of what a quotient is rounded to at its last place. -/
theorem nearest_eq (h : IsPlace num den e) :
    double.nearest num den =
      min double.infinity (e * 2 ^ 52 + roundEven (num * 2 ^ 1074) (den * 2 ^ e)) := by
  rw [Format.nearest_eq Format.double_proper (isPlace_iff.1 h), Format.low_double]
  rfl

/-- The nearest double of a quotient that is not too large is the quotient rounded at its place. -/
theorem units_nearest (h : IsPlace num den e)
    (hlt : double.nearest num den < double.infinity) :
    units (double.nearest num den) = roundEven (num * 2 ^ 1074) (den * 2 ^ e) * 2 ^ e := by
  have hfloor := h.floor_lt
  have hround := roundEven_le_succ (num * 2 ^ 1074) (den * 2 ^ e)
  have hfull : e = 0 ∨ 2 ^ 52 ≤ roundEven (num * 2 ^ 1074) (den * 2 ^ e) :=
    (eq_or_ne e 0).imp_right fun he => (h.le_floor he).trans (div_le_roundEven _ _)
  rw [nearest_eq h] at hlt ⊢
  rw [min_eq_right (min_lt_iff.1 hlt |>.resolve_left (lt_irrefl _)).le]
  exact units_carry (by omega) hfull

theorem nearest_le_infinity (num : Nat) {den : Nat} (hden : 0 < den) :
    double.nearest num den ≤ double.infinity :=
  Format.nearest_le_infinity Format.double_proper num hden

/-- A larger quotient is not rounded to less. -/
theorem nearest_mono {num den num' den' : Nat} (hden : 0 < den) (hden' : 0 < den')
    (h : num * den' ≤ num' * den) : double.nearest num den ≤ double.nearest num' den' :=
  Format.nearest_mono Format.double_proper hden hden' h

theorem nearest_units {r : Nat} (hr : r ≤ double.infinity) :
    double.nearest (units r) (2 ^ 1074) = r := by
  obtain ⟨m, e, -, rfl, hunits, hm, hfull⟩ := exists_units r
  rw [hunits]
  exact Format.nearest_exact Format.double_proper (pow_pos Nat.two_pos 1074)
    (by rw [Format.low_double]) hm hfull hr

/-- A double that is not above a quotient is not above the nearest double. -/
theorem le_nearest {num den r : Nat} (hden : 0 < den) (hr : r ≤ double.infinity)
    (h : units r * den ≤ num * 2 ^ 1074) : r ≤ double.nearest num den := by
  have hmono := nearest_mono (pow_pos Nat.two_pos 1074) hden h
  rwa [nearest_units hr] at hmono

/-- A double that is not below a quotient is not below the nearest double. -/
theorem nearest_le {num den r : Nat} (hden : 0 < den) (h : num * 2 ^ 1074 ≤ units r * den) :
    double.nearest num den ≤ r := by
  rcases Nat.le_total r double.infinity with hr | hr
  · have hmono := nearest_mono hden (pow_pos Nat.two_pos 1074) h
    rwa [nearest_units hr] at hmono
  · exact (nearest_le_infinity num hden).trans hr

/-- A quotient above half of the smallest double is not rounded to zero. -/
theorem nearest_pos {num den : Nat} (hden : 0 < den) (h : den < 2 * (num * 2 ^ 1074)) :
    0 < double.nearest num den := by
  obtain ⟨e, he⟩ := exists_isPlace num hden
  have hinf : 0 < double.infinity := by decide
  have hround : 0 < e * 2 ^ 52 + roundEven (num * 2 ^ 1074) (den * 2 ^ e) := by
    rcases Nat.eq_zero_or_pos e with rfl | hpos
    · rw [pow_zero, Nat.mul_one]
      exact Nat.add_pos_right _ (roundEven_pos h)
    · exact Nat.add_pos_left (Nat.mul_pos hpos (Nat.two_pow_pos 52)) _
  rw [nearest_eq he]
  exact lt_min hinf hround

end VirtualPeople
