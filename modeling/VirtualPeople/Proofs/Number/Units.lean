import VirtualPeople.Number.Binary
import Mathlib.Tactic.Ring
import Mathlib.Tactic.SplitIfs

/-!
# Units of the last place

A finite double that is not negative is a whole number of units of `2 ^ -1074`, the more of them
the higher its rank (`units_mono`): its significand, shifted by its place (`exists_units`).
-/

namespace VirtualPeople

/-- How many units of `2 ^ -1074` the number of a rank is. -/
def units (rank : Nat) : Nat :=
  if rank < 2 ^ 52 then rank else (2 ^ 52 + rank % 2 ^ 52) * 2 ^ (rank / 2 ^ 52 - 1)

theorem units_lt (rank : Nat) : units rank < 2 ^ 52 * 2 ^ (rank / 2 ^ 52) := by
  unfold units
  split_ifs with h
  · rw [Nat.div_eq_of_lt h, pow_zero]
    omega
  · obtain ⟨e, he⟩ : ∃ e, rank / 2 ^ 52 = e + 1 := ⟨rank / 2 ^ 52 - 1, by omega⟩
    rw [he, Nat.add_sub_cancel]
    calc (2 ^ 52 + rank % 2 ^ 52) * 2 ^ e < (2 ^ 52 * 2) * 2 ^ e :=
          Nat.mul_lt_mul_of_pos_right (by omega) (Nat.two_pow_pos e)
      _ = 2 ^ 52 * 2 ^ (e + 1) := by ring

theorem le_units {rank : Nat} (h : 2 ^ 52 ≤ rank) :
    2 ^ 52 * 2 ^ (rank / 2 ^ 52 - 1) ≤ units rank := by
  rw [units, if_neg (by omega)]
  exact Nat.mul_le_mul_right _ (by omega)

theorem units_mono {r s : Nat} (h : r ≤ s) : units r ≤ units s := by
  rcases Nat.lt_or_ge (r / 2 ^ 52) (s / 2 ^ 52) with he | he
  · calc units r ≤ 2 ^ 52 * 2 ^ (r / 2 ^ 52) := (units_lt r).le
      _ ≤ 2 ^ 52 * 2 ^ (s / 2 ^ 52 - 1) :=
          Nat.mul_le_mul_left _ (Nat.pow_le_pow_right (by omega) (by omega))
      _ ≤ units s := le_units (by omega)
  · have heq : r / 2 ^ 52 = s / 2 ^ 52 := by omega
    unfold units
    split_ifs
    · exact h
    · omega
    · omega
    · rw [heq]
      exact Nat.mul_le_mul_right _ (by omega)

theorem units_pos {r : Nat} (h : 0 < r) : 0 < units r :=
  units_mono (show 1 ≤ r from h)

theorem units_eq {m e : Nat} (hm : m < 2 ^ 53) (hfull : e = 0 ∨ 2 ^ 52 ≤ m) :
    units (e * 2 ^ 52 + m) = m * 2 ^ e := by
  unfold units
  split_ifs with hlow
  · obtain rfl : e = 0 := by omega
    simp
  · rcases Nat.lt_or_ge m (2 ^ 52) with hsmall | hlarge
    · obtain rfl : e = 0 := hfull.resolve_right (by omega)
      omega
    · rw [show (e * 2 ^ 52 + m) % 2 ^ 52 = m - 2 ^ 52 by omega,
        show (e * 2 ^ 52 + m) / 2 ^ 52 - 1 = e by omega, Nat.add_sub_cancel' hlarge]

/-- A significand may be rounded up to the next power of two, which has the next place. -/
theorem units_carry {m e : Nat} (hm : m ≤ 2 ^ 53) (hfull : e = 0 ∨ 2 ^ 52 ≤ m) :
    units (e * 2 ^ 52 + m) = m * 2 ^ e := by
  rcases hm.lt_or_eq with hlt | rfl
  · exact units_eq hlt hfull
  · have hcarry : e * 2 ^ 52 + 2 ^ 53 = (e + 1) * 2 ^ 52 + 2 ^ 52 := by ring
    rw [hcarry, units_eq (by decide) (.inr le_rfl), pow_succ' 2 e, ← Nat.mul_assoc]
    rfl

/-- The significand and the place of a rank. -/
theorem exists_units (rank : Nat) :
    ∃ m e : Nat, Format.double.value rank = (m, (e : Int) - 1074) ∧ rank = e * 2 ^ 52 + m ∧
      units rank = m * 2 ^ e ∧ m < 2 ^ 53 ∧ (e = 0 ∨ 2 ^ 52 ≤ m) := by
  unfold Format.value units
  simp only [Format.double, Nat.shiftLeft_eq, one_mul]
  split_ifs with h
  · exact ⟨rank, 0, by simp, by simp, by simp, by omega, .inl rfl⟩
  · refine ⟨2 ^ 52 + rank % 2 ^ 52, rank / 2 ^ 52 - 1, ?_, by omega, rfl, by omega,
      .inr (by omega)⟩
    rw [Prod.mk.injEq]
    exact ⟨rfl, by omega⟩

end VirtualPeople
