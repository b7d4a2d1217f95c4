import VirtualPeople.Proofs.Multiplicity.Expanding
import VirtualPeople.Proofs.Multiplicity.Raising
import VirtualPeople.Proofs.Number.Value

/-!
# The most copies of an event

An expected number that is accepted is no number or lies between zero and the bound, and rounding
by a seed goes up to the next whole number at most; so an event never counts more often than the
bound, rounded up (`count_le_cap`).
-/

namespace VirtualPeople

section

variable {u d : ℕ}

theorem div_le_ceil (hd : 0 < d) : u / d ≤ ⌈(u : ℚ) / d⌉₊ := by
  have hle : ((u / d : ℕ) : ℚ) ≤ (u : ℚ) / d := by
    rw [le_div_iff₀ (Nat.cast_pos.2 hd)]
    exact_mod_cast Nat.div_mul_le_self u d
  exact Nat.cast_le.1 (hle.trans (Nat.le_ceil _))

theorem div_lt_ceil (hd : 0 < d) (h : 0 < u % d) : u / d < ⌈(u : ℚ) / d⌉₊ := by
  rw [Nat.lt_ceil, lt_div_iff₀ (Nat.cast_pos.2 hd)]
  have hdiv := Nat.div_add_mod' u d
  exact_mod_cast (show u / d * d < u by omega)

end

/-- Rounding by a seed goes no further than rounding up. -/
theorem roundBySeed_le_ceil {x : Float} (hx : isFinite x) (hneg : ¬ x < 0.0) (seed : UInt64) :
    roundBySeed x seed ≤ ⌈valueOf x⌉₊ := by
  have hrank : rankOf x < Format.double.infinity := of_decide_eq_true hx
  have hvalue : valueOf x = (units (rankOf x) : ℚ) / (2 ^ 1074 : ℕ) := by
    rw [valueOf_of_not_neg (decide_eq_true hrank.le) hneg, Nat.cast_pow, Nat.cast_ofNat]
  unfold roundBySeed
  rw [hvalue, wholeAndFraction_eq hrank]
  generalize units (rankOf x) = u
  have hpos : 0 < (2 ^ 1074 : ℕ) := by positivity
  generalize 2 ^ 1074 = d at hpos ⊢
  have hmin : min (2 ^ 64 - 1) (u / d) ≤ u / d := Nat.min_le_right _ _
  simp only
  split_ifs with hup
  · have hrest : 0 < u % d := by
      refine Nat.pos_of_ne_zero fun hzero => ?_
      rw [hzero, Nat.zero_mul, Nat.zero_div] at hup
      exact Nat.not_lt_zero _ hup
    have hlt := div_lt_ceil hpos hrest
    omega
  · exact hmin.trans (div_le_ceil hpos)

/-- What is no number is rounded to zero. -/
theorem roundBySeed_of_not_number {x : Float} (hx : ¬ isNumber x) (seed : UInt64) :
    roundBySeed x seed = 0 := by
  have hrank : Format.double.infinity < rankOf x := by
    unfold isNumber at hx
    rw [decide_eq_true_eq] at hx
    omega
  unfold roundBySeed wholeAndFraction
  rw [if_pos hrank]
  simp

namespace Multiplicity

variable {m : Multiplicity} {e : Event}

/-- The bound of a multiplicity is finite. -/
def Capped (m : Multiplicity) : Prop := isFinite m.max

/-- The bound of a multiplicity rounded up, and none if that is negative. -/
def cap (m : Multiplicity) : ℕ := ⌈valueOf m.max⌉₊

/-- What is accepted is not negative and, if it is a number, not above the bound. -/
theorem bounded_le {x y : Float} (hmax : isNumber m.max) (h : m.bounded x = .ok y) :
    ¬ y < 0.0 ∧ (isNumber y → y ≤ m.max) := by
  by_cases hlt : m.max < x
  · unfold bounded at h
    simp only [if_pos hlt] at h
    split_ifs at h with hcap hneg
    · exact (invalidEvent_ne_ok h).elim
    · obtain rfl := pure_eq_ok.1 h
      exact ⟨hneg, fun _ => (double_le_iff _ _).2 ⟨hmax, hmax, le_refl _⟩⟩
    · exact (invalidEvent_ne_ok h).elim
  · obtain ⟨hneg, rfl⟩ := bounded_eq_ok hlt h
    refine ⟨hneg, fun hx => (double_le_iff x m.max).2 ⟨hx, hmax, ?_⟩⟩
    rw [double_lt_iff] at hlt
    by_contra hle
    exact hlt ⟨hmax, hx, by omega⟩

theorem count_le_cap {copies : Nat} (hcapped : m.Capped) (h : m.count e = .ok copies) :
    copies ≤ m.cap := by
  have hrank : rankOf m.max < Format.double.infinity := of_decide_eq_true hcapped
  simp only [count, bind_eq_ok, pure_eq_ok] at h
  obtain ⟨x, -, y, hy, rfl⟩ := h
  obtain ⟨hneg, hle⟩ := bounded_le (decide_eq_true hrank.le) hy
  by_cases hnumber : isNumber y
  · have hfinite : isFinite y := decide_eq_true ((rankOf_mono (hle hnumber) hneg).trans_lt hrank)
    calc roundBySeed y _ ≤ ⌈valueOf y⌉₊ := roundBySeed_le_ceil hfinite hneg _
      _ ≤ m.cap := Nat.ceil_mono (valueOf_mono (hle hnumber))
  · rw [roundBySeed_of_not_number hnumber]
    exact Nat.zero_le m.cap

/-- Copies of an event without activities add no more than each of them may have. -/
theorem labelClones_length_le {label : Labeling} {bound : ℤ}
    (hl : ∀ {e e'}, Event.activities e = [] → label e = .ok () e' →
      ((Event.activities e').length : ℤ) ≤ bound) {template : Event}
    (hempty : Event.activities template = []) :
    ∀ {copies index e e'}, m.labelClones label template copies index e = .ok () e' →
      ((Event.activities e').length : ℤ) ≤ (Event.activities e).length + copies * bound
  | 0, _, e, _, h => by
    cases h
    simp
  | copies + 1, index, e, e', h => by
    obtain ⟨copy, labeled, hc, hlabel, hrest⟩ := labelClones_succ h
    have hcopy := hl ((activities_clone hc).trans hempty) hlabel
    have hothers := labelClones_length_le hl hempty hrest
    rw [Event.activities_withActivities, List.length_append] at hothers
    push_cast at hothers ⊢
    linarith

end Multiplicity

end VirtualPeople
