import VirtualPeople.Number.Decimal
import VirtualPeople.Proofs.Number.Nearest
import Mathlib.Algebra.Order.Field.Rat
import Mathlib.Tactic.FieldSimp
import Mathlib.Tactic.NormNum

/-!
# Decimals and doubles

What double a decimal is read as depends on its value alone (`rank_congr`): the powers of ten that
are never computed would not have changed it. So trailing zeros may go, and the shortest decimal of
a double is read as that double (`rank_shortest`).
-/

namespace VirtualPeople

open Format (double roundEven)

theorem nearest_congr {num den num' den' : Nat} (hden : 0 < den) (hden' : 0 < den')
    (h : (num : ℚ) / den = num' / den') : double.nearest num den = double.nearest num' den' := by
  rw [div_eq_div_iff (Nat.cast_ne_zero.2 hden.ne') (Nat.cast_ne_zero.2 hden'.ne')] at h
  have hcross : num * den' = num' * den := by exact_mod_cast h
  exact Nat.le_antisymm (nearest_mono hden hden' hcross.le) (nearest_mono hden' hden hcross.ge)

/-- A quotient up to half of the smallest double is rounded to zero. -/
theorem nearest_eq_zero {num den : Nat} (hden : 0 < den) (h : 2 * (num * 2 ^ 1074) ≤ den) :
    double.nearest num den = 0 := by
  have hplace : IsPlace num den 0 := by
    refine ⟨?_, .inl rfl⟩
    calc num * 2 ^ 1074 ≤ den := by omega
      _ < den * 2 ^ (0 + 53) := lt_mul_of_one_lt_right hden (by norm_num)
  have hround : roundEven (num * 2 ^ 1074) (den * 2 ^ 0) = 0 := by
    rw [pow_zero, Nat.mul_one]
    unfold roundEven
    rw [Nat.div_eq_of_lt (by omega), Nat.mod_eq_of_lt (by omega)]
    exact if_neg (by omega)
  rw [nearest_eq hplace, hround]
  exact Nat.min_zero _

namespace Decimal

/-- The number that a decimal stands for. -/
def value (d : Decimal) : ℚ := d.digits * 10 ^ d.exponent

/-- A decimal as a quotient of naturals. -/
def fraction : Decimal → Nat × Nat
  | ⟨n, .ofNat e⟩ => (n * 10 ^ e, 1)
  | ⟨n, .negSucc e⟩ => (n, 10 ^ (e + 1))

theorem fraction_pos : ∀ d : Decimal, 0 < d.fraction.2
  | ⟨_, .ofNat _⟩ => Nat.one_pos
  | ⟨_, .negSucc _⟩ => Nat.pow_pos (by decide)

theorem value_eq : ∀ d : Decimal, d.value = (d.fraction.1 : ℚ) / d.fraction.2
  | ⟨n, .ofNat e⟩ => by simp [value, fraction]
  | ⟨n, .negSucc e⟩ => by simp [value, fraction, zpow_negSucc, div_eq_mul_inv]

/-- A decimal is read as the double nearest to its value. -/
theorem rank_eq : ∀ d : Decimal, d.rank .double = double.nearest d.fraction.1 d.fraction.2
  | ⟨n, .ofNat e⟩ => by
    simp only [rank, fraction]
    split_ifs with hzero hlarge
    · rw [hzero, Nat.zero_mul]
      rfl
    · have hinf : units double.infinity = 2 ^ 1024 * 2 ^ 1074 := by decide +kernel
      have hpow : 2 ^ 1024 ≤ 10 ^ e :=
        calc 2 ^ 1024 ≤ 2 ^ (3 * e) := pow_le_pow_right₀ one_le_two (by omega)
          _ = (2 ^ 3) ^ e := pow_mul 2 3 e
          _ ≤ 10 ^ e := Nat.pow_le_pow_left (by decide) e
      refine (Nat.le_antisymm (nearest_le_infinity _ Nat.one_pos)
        (le_nearest Nat.one_pos le_rfl ?_)).symm
      rw [hinf, Nat.mul_one]
      exact Nat.mul_le_mul_right _
        (hpow.trans (Nat.le_mul_of_pos_left _ (Nat.pos_of_ne_zero hzero)))
    · rfl
  | ⟨n, .negSucc e⟩ => by
    simp only [rank, fraction]
    split_ifs with hsmall
    · refine (nearest_eq_zero (Nat.pow_pos (by decide)) ?_).symm
      calc 2 * (n * 2 ^ 1074) ≤ 2 * (2 ^ (n.log2 + 1) * 2 ^ 1074) :=
            Nat.mul_le_mul_left 2 (Nat.mul_le_mul_right _ Nat.lt_log2_self.le)
        _ = 2 ^ (n.log2 + 1 + 1074 + 1) := by rw [← pow_add, Nat.mul_comm, ← pow_succ]
        _ ≤ 2 ^ (3 * (e + 1)) := Nat.pow_le_pow_right (by decide) (by omega)
        _ = (2 ^ 3) ^ (e + 1) := pow_mul 2 3 (e + 1)
        _ ≤ 10 ^ (e + 1) := Nat.pow_le_pow_left (by decide) _
    · rfl

/-- Decimals of one value are read as one double. -/
theorem rank_congr {d d' : Decimal} (h : d.value = d'.value) :
    d.rank .double = d'.rank .double := by
  rw [rank_eq, rank_eq]
  refine nearest_congr d.fraction_pos d'.fraction_pos ?_
  rw [← value_eq, ← value_eq, h]

theorem rank_of_value {d : Decimal} {r : Nat} (hr : r ≤ double.infinity)
    (h : d.value = (units r : ℚ) / 2 ^ 1074) : d.rank .double = r := by
  rw [rank_eq, ← nearest_units hr]
  refine nearest_congr d.fraction_pos (pow_pos Nat.two_pos 1074) ?_
  rw [← value_eq, h, Nat.cast_pow, Nat.cast_ofNat]

theorem value_trimmed : ∀ (fuel : Nat) (d : Decimal), (trimmed fuel d).value = d.value
  | 0, _ => rfl
  | fuel + 1, ⟨n, e⟩ => by
    unfold trimmed
    split_ifs with hzero
    · rw [value_trimmed]
      have hn : ((n / 10 : Nat) : ℚ) * 10 = n := by
        exact_mod_cast Nat.div_mul_cancel (Nat.dvd_of_mod_eq_zero hzero.2)
      simp only [value]
      rw [zpow_add_one₀ (by norm_num), ← hn]
      ring
    · rfl

end Decimal

/-- The number of a rank, written out. -/
theorem value_of_units (rank : Nat) :
    (match double.value rank with
      | (m, .ofNat q) => (⟨m <<< q, 0⟩ : Decimal)
      | (m, .negSucc q) => ⟨m * Nat.pow 5 (q + 1), .negSucc q⟩).value =
      (units rank : ℚ) / 2 ^ 1074 := by
  obtain ⟨m, e, hvalue, -, hunits, -, -⟩ := exists_units rank
  rw [hvalue, hunits]
  rcases hq : (e : Int) - 1074 with q | q
  · obtain rfl : e = q + 1074 := by
      simp only [Int.ofNat_eq_natCast] at hq
      omega
    simp only [Decimal.value, Nat.shiftLeft_eq, zpow_zero, mul_one]
    push_cast
    rw [pow_add]
    field_simp
  · have hpow : (2 : ℚ) ^ 1074 = 2 ^ e * 2 ^ (q + 1) := by
      rw [← pow_add]
      congr 1
      omega
    have hten : (10 : ℚ) ^ (q + 1) = 2 ^ (q + 1) * 5 ^ (q + 1) := by
      rw [← mul_pow]
      norm_num
    simp only [Decimal.value, zpow_negSucc, Nat.pow_eq]
    push_cast
    rw [hpow, hten]
    field_simp

/-- The shortest decimal of a double is read as that double. -/
theorem rank_shortest (tie : Tie) {r : Nat} (hr : r ≤ double.infinity) :
    (double.shortest tie r).rank .double = r := by
  unfold Format.shortest
  simp only
  split
  · rename_i d hfound
    rw [Decimal.rank_congr (Decimal.value_trimmed 32 d)]
    have := List.find?_some hfound
    exact beq_iff_eq.1 this
  · exact Decimal.rank_of_value hr (value_of_units r)

end VirtualPeople
