import VirtualPeople.Proofs.Number.Value
import Mathlib.Order.WithBot

/-!
# Doubles as numbers

A double that is a number is a rational number or one of the two infinities. The order of doubles
and their equality are those of the numbers (`numberOf?_lt_iff`, `numberOf?_eq_iff`); what is no
number is in neither.
-/

namespace VirtualPeople

/-- The rational numbers with an infinity on each side. -/
abbrev Extended := WithBot (WithTop ℚ)

/-- What a double stands for, if it is a number. -/
def numberOf? (x : Float) : Option Extended :=
  if isFinite x then some (valueOf x : WithTop ℚ)
  else if isNumber x then some (if isNegative x then ⊥ else ⊤)
  else none

theorem isSome_numberOf? (x : Float) : (numberOf? x).isSome = isNumber x := by
  unfold numberOf?
  by_cases hfinite : isFinite x
  · rw [if_pos hfinite, isNumber_of_isFinite hfinite, Option.isSome_some]
  · rw [if_neg hfinite]
    rcases isNumber x
    · rfl
    · rfl

theorem isNumber_of_numberOf? {x : Float} {n : Extended} (h : numberOf? x = some n) :
    isNumber x := by
  rw [← isSome_numberOf?, h, Option.isSome_some]

/-- A number is finite or has the rank of an infinity. -/
theorem numberOf?_eq_some {x : Float} {n : Extended} (h : numberOf? x = some n) :
    (isFinite x ∧ n = (valueOf x : WithTop ℚ)) ∨
      (signedRank x = Format.double.infinity ∧ n = ⊤) ∨
      (signedRank x = -Format.double.infinity ∧ n = ⊥) := by
  have hnumber := isNumber_of_numberOf? h
  have hrank : rankOf x ≤ Format.double.infinity := of_decide_eq_true hnumber
  by_cases hfinite : isFinite x
  · rw [numberOf?, if_pos hfinite] at h
    exact .inl ⟨hfinite, (Option.some.inj h).symm⟩
  · have hinf : rankOf x = Format.double.infinity := by
      rw [isFinite, decide_eq_true_eq] at hfinite
      omega
    rw [numberOf?, if_neg hfinite, if_pos hnumber, Option.some.injEq] at h
    rw [signedRank, hinf]
    rcases hneg : isNegative x
    · rw [hneg] at h
      exact .inr (.inl ⟨rfl, h.symm⟩)
    · rw [hneg] at h
      exact .inr (.inr ⟨rfl, h.symm⟩)

section

variable {x y : Float} {m n : Extended}

theorem numberOf?_lt_iff (hx : numberOf? x = some m) (hy : numberOf? y = some n) :
    m < n ↔ x < y := by
  have hnx := isNumber_of_numberOf? hx
  have hny := isNumber_of_numberOf? hy
  have finite_lt {z : Float} (h : isFinite z) : (signedRank z).natAbs < Format.double.infinity :=
    (natAbs_signedRank z).trans_lt (of_decide_eq_true h)
  rw [double_lt_iff, and_iff_right hnx, and_iff_right hny]
  obtain ⟨hfx, rfl⟩ | ⟨hrx, rfl⟩ | ⟨hrx, rfl⟩ := numberOf?_eq_some hx <;>
    obtain ⟨hfy, rfl⟩ | ⟨hry, rfl⟩ | ⟨hry, rfl⟩ := numberOf?_eq_some hy
  · rw [WithBot.coe_lt_coe, WithTop.coe_lt_coe, valueOf_lt_iff hnx hny, double_lt_iff,
      and_iff_right hnx, and_iff_right hny]
  · have := finite_lt hfx
    exact iff_of_true (WithBot.coe_lt_coe.2 (WithTop.coe_lt_top _)) (by omega)
  · have := finite_lt hfx
    exact iff_of_false not_lt_bot (by omega)
  · have := finite_lt hfy
    exact iff_of_false not_top_lt (by omega)
  · exact iff_of_false not_top_lt (by omega)
  · exact iff_of_false not_lt_bot (by omega)
  · have := finite_lt hfy
    exact iff_of_true (WithBot.bot_lt_coe _) (by omega)
  · have hpos : (0 : Int) < Format.double.infinity := by decide
    exact iff_of_true bot_lt_top (by omega)
  · exact iff_of_false not_lt_bot (by omega)

theorem numberOf?_eq_iff (hx : numberOf? x = some m) (hy : numberOf? y = some n) :
    m = n ↔ x == y := by
  have hnx := isNumber_of_numberOf? hx
  have hny := isNumber_of_numberOf? hy
  have hlt := numberOf?_lt_iff hx hy
  have hgt := numberOf?_lt_iff hy hx
  rw [double_lt_iff, and_iff_right hnx, and_iff_right hny] at hlt
  rw [double_lt_iff, and_iff_right hny, and_iff_right hnx] at hgt
  rw [double_beq_iff, and_iff_right hnx, and_iff_right hny, ← not_iff_not, ← ne_eq,
    ne_iff_lt_or_gt, hlt, hgt, lt_or_lt_iff_ne]

end

end VirtualPeople
