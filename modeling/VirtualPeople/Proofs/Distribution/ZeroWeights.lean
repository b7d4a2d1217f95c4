import VirtualPeople.Proofs.Distribution.Weights

/-!
# Choices of zero weight

A positive weight draws a number that is not negative. A zero draws infinity, with the sign of the
zero, or no number if the variate is zero too. So a choice of zero weight wins in three cases
(`Spoiled`): its draw comes first and is no number, which nothing compares with; its zero has the
negative sign, which is accepted as not less than zero, and its draw is below every number; or it
comes first and no draw is finite. In every other case the winner has a positive weight
(`winner_pos_iff`).
-/

namespace VirtualPeople

open Format (double)

namespace Distribution

/-- The ways in which a seed makes a distribution pick a choice of zero weight. -/
inductive Spoiled (variate : String → Float) (seed : String) (d : Distribution) : Prop
  /-- The first draw is zero divided by zero. -/
  | undefined : IsZero d.first.weight → IsZero (variate (key seed d.first.id)) →
      Spoiled variate seed d
  /-- A draw is negative infinity. -/
  | negative (c : Choice) : c ∈ d.toList → IsZero c.weight → isNegative c.weight →
      ¬ IsZero (variate (key seed c.id)) → Spoiled variate seed d
  /-- The first draw is infinite, and none is below it. -/
  | infinite : IsZero d.first.weight →
      (∀ c ∈ d.toList, 0.0 < c.weight → ¬ isFinite (draw variate seed c)) →
      Spoiled variate seed d

variable {variate : String → Float} {seed : String}

/-- The draw of a winner is the least number drawn, and below the first unless that one wins. -/
structure Wins (variate : String → Float) (seed : String) (first : Choice) (rest : List Choice)
    (w : Choice) : Prop where
  number : isNumber (draw variate seed w)
  eq_or_lt : w = first ∨ signedRank (draw variate seed w) < signedRank (draw variate seed first)
  le : ∀ c ∈ first :: rest, isNumber (draw variate seed c) →
    signedRank (draw variate seed w) ≤ signedRank (draw variate seed c)

theorem least_wins : ∀ (rest : List Choice) (first : Choice),
    isNumber (draw variate seed first) →
    Wins variate seed first rest (least variate seed first (draw variate seed first) rest)
  | [], first, hfirst => by
    refine ⟨hfirst, .inl rfl, fun c hc _ => ?_⟩
    rw [List.mem_singleton.1 hc]
    exact le_rfl
  | c :: rest, first, hfirst => by
    rw [least]
    split_ifs with hless
    · obtain ⟨hc, -, hlt⟩ := (double_lt_iff _ _).1 hless
      have hwins := least_wins rest c hc
      have hbelow := (hwins.le c List.mem_cons_self hc).trans_lt hlt
      exact ⟨hwins.number, .inr hbelow, List.forall_mem_cons.2 ⟨fun _ => hbelow.le, hwins.le⟩⟩
    · have hwins := least_wins rest first hfirst
      obtain ⟨hmin, hrest⟩ := List.forall_mem_cons.1 hwins.le
      have hle (hc : isNumber (draw variate seed c)) :
          signedRank (draw variate seed first) ≤ signedRank (draw variate seed c) :=
        Int.not_lt.1 fun hlt => hless ((double_lt_iff _ _).2 ⟨hc, hfirst, hlt⟩)
      exact ⟨hwins.number, hwins.eq_or_lt, List.forall_mem_cons.2 ⟨hmin,
        List.forall_mem_cons.2 ⟨fun hc => (hmin hfirst).trans (hle hc), hrest⟩⟩⟩

/-- Nothing compares with what is no number. -/
theorem least_of_undefined {drawn : Float} (h : ¬ isNumber drawn) :
    ∀ (choices : List Choice) (best : Choice), least variate seed best drawn choices = best
  | [], _ => rfl
  | c :: rest, best => by
    have hnot : ¬ draw variate seed c < drawn := fun hlt => h ((double_lt_iff _ _).1 hlt).2.1
    rw [least, if_neg hnot]
    exact least_of_undefined h rest best

section

variable (hvariate : ∀ s, 0.0 ≤ variate s) (seed) {c : Choice}

include hvariate

theorem draw_of_pos (hc : 0.0 < c.weight) (hfinite : isFinite c.weight) :
    isNumber (draw variate seed c) ∧ 0 ≤ signedRank (draw variate seed c) := by
  obtain ⟨-, hnumber, hle⟩ := (double_le_iff _ _).1 (zero_le_div (hvariate _) hc hfinite)
  exact ⟨hnumber, hle⟩

theorem draw_of_zero (hc : IsZero c.weight) (hv : ¬ IsZero (variate (key seed c.id))) :
    isNumber (draw variate seed c) ∧ signedRank (draw variate seed c) =
      Rank.signed (isNegative c.weight) double.infinity := by
  obtain ⟨hnumber, hsign⟩ := zero_le_double_iff.1 (hvariate (key seed c.id))
  obtain ⟨hneg, hrank⟩ := double_div_zero hnumber (Nat.pos_of_ne_zero hv) hc
  rw [hsign.resolve_right hv, Bool.false_xor] at hneg
  exact ⟨decide_eq_true hrank.le, congrArg₂ Rank.signed hneg hrank⟩

theorem isNumber_draw_iff (hc : IsWeight c.weight) : isNumber (draw variate seed c) ↔
    ¬ (IsZero c.weight ∧ IsZero (variate (key seed c.id))) := by
  rcases hc with hzero | ⟨hpos, hfinite⟩
  · have hnumber := (zero_le_double_iff.1 (hvariate (key seed c.id))).1
    have hrank : rankOf c.weight = 0 := hzero
    rw [draw, isNumber_div_zero_iff hzero]
    simp only [hnumber, hrank, true_and, IsZero, Nat.pos_iff_ne_zero]
  · have hne : ¬ IsZero c.weight := (zero_lt_double_iff.1 hpos).2.2.ne'
    exact iff_of_true (draw_of_pos seed hvariate hpos hfinite).1 fun h => hne h.1

end

section

variable {d : Distribution} (hvariate : ∀ s, 0.0 ≤ variate s)
  (hweights : ∀ c ∈ d.toList, IsWeight c.weight)

include hvariate hweights

theorem isZero_of_spoiled (h : Spoiled variate seed d) : IsZero (d.winner variate seed).weight := by
  have hfirst : IsWeight d.first.weight := hweights d.first List.mem_cons_self
  by_cases hnumber : isNumber (draw variate seed d.first)
  · have hwins : Wins variate seed d.first d.rest (d.winner variate seed) := least_wins _ _ hnumber
    refine (hweights _ (winner_mem d variate seed)).resolve_right fun ⟨hpos, hfinite⟩ => ?_
    have hnonneg := (draw_of_pos seed hvariate hpos hfinite).2
    cases h with
    | undefined hzero hv => exact (isNumber_draw_iff seed hvariate hfirst).1 hnumber ⟨hzero, hv⟩
    | negative c hc hzero hneg hv =>
      obtain ⟨hcnumber, hrank⟩ := draw_of_zero seed hvariate hzero hv
      have hle := hwins.le c hc hcnumber
      rw [hrank, hneg] at hle
      have : Rank.signed true double.infinity < 0 := by decide
      omega
    | infinite hzero hinfinite =>
      rcases hwins.eq_or_lt with heq | hlt
      · rw [heq] at hpos
        exact (zero_lt_double_iff.1 hpos).2.2.ne' hzero
      · exact hinfinite _ (winner_mem d variate seed) hpos
          (isFinite_of_lt hnonneg (hlt.trans_le (signedRank_le hnumber)))
  · have hwinner : d.winner variate seed = d.first := least_of_undefined hnumber _ _
    rw [isNumber_draw_iff seed hvariate hfirst, not_not] at hnumber
    rw [hwinner]
    exact hnumber.1

theorem pos_of_not_spoiled (h : ¬ Spoiled variate seed d) :
    0.0 < (d.winner variate seed).weight := by
  have hfirst : IsWeight d.first.weight := hweights d.first List.mem_cons_self
  have hnumber : isNumber (draw variate seed d.first) :=
    (isNumber_draw_iff seed hvariate hfirst).2 fun hc => h (.undefined hc.1 hc.2)
  have hwins : Wins variate seed d.first d.rest (d.winner variate seed) := least_wins _ _ hnumber
  have hmem := winner_mem d variate seed
  by_contra hpos
  have hzero : IsZero (d.winner variate seed).weight :=
    (hweights _ hmem).resolve_right fun hc => hpos hc.1
  have hv : ¬ IsZero (variate (key seed (d.winner variate seed).id)) := fun hv =>
    (isNumber_draw_iff seed hvariate (hweights _ hmem)).1 hwins.number ⟨hzero, hv⟩
  have hsign : isNegative (d.winner variate seed).weight = false :=
    Bool.eq_false_iff.2 fun hneg => h (.negative _ hmem hzero hneg hv)
  have hinfinite := (draw_of_zero seed hvariate hzero hv).2
  rw [hsign] at hinfinite
  have heq : d.winner variate seed = d.first := hwins.eq_or_lt.resolve_right fun hlt => by
    rw [hinfinite] at hlt
    exact (signedRank_le hnumber).not_gt hlt
  refine h (.infinite (heq ▸ hzero) fun c hc hcpos hfinite => ?_)
  have hle := hwins.le c hc (isNumber_of_isFinite hfinite)
  rw [hinfinite] at hle
  exact (signedRank_lt hfinite).not_ge hle

end

/-- A first weight that is positive and no zero of negative sign keep zero weights from winning. -/
theorem not_spoiled {d : Distribution} (hfirst : 0.0 < d.first.weight)
    (hsign : ∀ c ∈ d.toList, isNegative c.weight = false) : ¬ Spoiled variate seed d := by
  have hne : ¬ IsZero d.first.weight := (zero_lt_double_iff.1 hfirst).2.2.ne'
  rintro (⟨hzero, -⟩ | ⟨c, hc, -, hneg, -⟩ | ⟨hzero, -⟩)
  · exact hne hzero
  · exact Bool.false_ne_true ((hsign c hc).symm.trans hneg)
  · exact hne hzero

/-- An accepted distribution picks a choice of positive weight, by every seed that does not spoil it
and by no other. A logarithm need only be not positive up to one; `pick` takes `Float.log`. -/
theorem winner_pos_iff {choices : List Choice} {d : Distribution} {ln : Float → Float}
    (h : ofChoices choices = .ok d) (hln : ∀ u, 0.0 ≤ u → u ≤ 1.0 → ln u ≤ 0.0) (seed : String) :
    ∃ c ∈ choices, c.id = (d.winner (exponentialBy ln) seed).id ∧
      (0.0 < c.weight ↔ ¬ Spoiled (exponentialBy ln) seed d) := by
  have hweights : ∀ c ∈ d.toList, IsWeight c.weight := fun c hc => isWeight_of_mem h hc
  have hvariate : ∀ s, 0.0 ≤ exponentialBy ln s := zero_le_exponentialBy hln
  have hmem := winner_mem d (exponentialBy ln) seed
  rw [(ofChoices_eq_ok h).2.2] at hmem
  obtain ⟨c, hc, hwinner⟩ := List.mem_map.1 hmem
  have hid : (scaled (total choices) c).id = (d.winner (exponentialBy ln) seed).id :=
    congrArg Choice.id hwinner
  refine ⟨c, hc, hid, ?_⟩
  rw [← (weight_scaled h hc).2, hwinner]
  constructor
  · intro hpos hspoiled
    have hzero := isZero_of_spoiled hvariate hweights hspoiled
    exact (zero_lt_double_iff.1 hpos).2.2.ne' hzero
  · exact pos_of_not_spoiled hvariate hweights

example (d : Distribution) (seed : String) :
    d.pick seed = (d.winner (exponentialBy Float.log) seed).id := rfl

/-- The logarithm at the uniform variates of two choices, and below zero elsewhere. -/
def twoLogarithms (u : Float) : Float :=
  if u = 0.5217370880371726 then -0.6505914807442307
  else if u = 0.8798772757873751 then -0.12797284056777014
  else -1.0

theorem winner_pos_iff_one_zero :
    ofChoices [⟨9, 1.0⟩, ⟨7, 0.0⟩] = .ok ⟨⟨9, 1.0⟩, [⟨7, 0.0⟩]⟩ ∧
      (∀ u, 0.0 ≤ u → u ≤ 1.0 → twoLogarithms u ≤ 0.0) ∧
      ∃ c ∈ [(⟨9, 1.0⟩ : Choice), ⟨7, 0.0⟩],
        c.id = (winner (exponentialBy twoLogarithms) "a" ⟨⟨9, 1.0⟩, [⟨7, 0.0⟩]⟩).id ∧
          0.0 < c.weight := by
  have hok : ofChoices [⟨9, 1.0⟩, ⟨7, 0.0⟩] = .ok ⟨⟨9, 1.0⟩, [⟨7, 0.0⟩]⟩ := by
    have hone : (1.0 / 1.0 : Float) = 1.0 := by decide +kernel
    have hzero : (0.0 / 1.0 : Float) = 0.0 := by decide
    have htotal : total [⟨9, 1.0⟩, ⟨7, 0.0⟩] = 1.0 := by decide
    rw [ofChoices_of_accepted (by decide) (by rw [htotal]; decide), htotal]
    simp only [scaled, hone, hzero, List.map]
  have hln : ∀ u, 0.0 ≤ u → u ≤ 1.0 → twoLogarithms u ≤ 0.0 := by
    intro u _ _
    unfold twoLogarithms
    split_ifs <;> decide
  refine ⟨hok, hln, ?_⟩
  obtain ⟨c, hc, hid, hiff⟩ := winner_pos_iff hok hln "a"
  exact ⟨c, hc, hid, hiff.2 (not_spoiled (by decide) (by decide))⟩

/-- A zero of either sign and a positive weight; the zeros draw the same variate. -/
def signedZeros : List Choice := [⟨7, 0.0⟩, ⟨7, -0.0⟩, ⟨9, 1.0⟩]

/-- Dividing a variate by the zeros of both signs gives negative infinity once. -/
theorem div_signed_zeros {v : Float} (h : isNumber (v / 0.0)) :
    signedRank (v / 0.0) = -double.infinity ∨
      v / -0.0 < v / 0.0 ∧ signedRank (v / -0.0) = -double.infinity := by
  obtain ⟨hnumber, hpos⟩ := (isNumber_div_zero_iff rfl).1 h
  obtain ⟨hsign, hrank⟩ := double_div_zero (y := 0.0) hnumber hpos rfl
  obtain ⟨hsign', hrank'⟩ := double_div_zero (y := -0.0) hnumber hpos rfl
  have hlow : signedRank (v / 0.0) = Rank.signed (isNegative v ^^ false) double.infinity :=
    congrArg₂ Rank.signed hsign hrank
  have hhigh : signedRank (v / -0.0) = Rank.signed (isNegative v ^^ true) double.infinity :=
    congrArg₂ Rank.signed hsign' hrank'
  rcases hv : isNegative v <;> rw [hv] at hlow hhigh
  · refine .inr ⟨(double_lt_iff _ _).2 ⟨decide_eq_true hrank'.le, h, ?_⟩, hhigh⟩
    rw [hlow, hhigh]
    decide
  · exact .inl hlow

theorem winner_signedZeros (variate : String → Float) (seed : String) :
    (winner variate seed ⟨⟨7, 0.0⟩, [⟨7, -0.0⟩, ⟨9, 1.0⟩]⟩).id = 7 := by
  have hzeros : isNumber (draw variate seed ⟨7, 0.0⟩) →
      signedRank (draw variate seed ⟨7, 0.0⟩) = -double.infinity ∨
        draw variate seed ⟨7, -0.0⟩ < draw variate seed ⟨7, 0.0⟩ ∧
          signedRank (draw variate seed ⟨7, -0.0⟩) = -double.infinity := div_signed_zeros
  rw [winner, least]
  split_ifs with hless
  · have hthird : ¬ draw variate seed ⟨9, 1.0⟩ < draw variate seed ⟨7, -0.0⟩ := by
      rcases hzeros ((double_lt_iff _ _).1 hless).2.1 with hlow | ⟨-, hlow⟩
      · exact absurd hless (not_lt_of_infinity hlow)
      · exact not_lt_of_infinity hlow
    rw [least, if_neg hthird]
    rfl
  · have hthird : ¬ draw variate seed ⟨9, 1.0⟩ < draw variate seed ⟨7, 0.0⟩ := fun h => by
      rcases hzeros ((double_lt_iff _ _).1 h).2.1 with hlow | ⟨hless', -⟩
      · exact not_lt_of_infinity hlow h
      · exact hless hless'
    rw [least, if_neg hthird]
    rfl

theorem signedZeros_never_pick_pos :
    ofChoices signedZeros = .ok ⟨⟨7, 0.0⟩, [⟨7, -0.0⟩, ⟨9, 1.0⟩]⟩ ∧
      ∀ seed, ¬ ∃ c ∈ signedZeros,
        c.id = pick ⟨⟨7, 0.0⟩, [⟨7, -0.0⟩, ⟨9, 1.0⟩]⟩ seed ∧ 0.0 < c.weight := by
  constructor
  · have hone : (1.0 / 1.0 : Float) = 1.0 := by decide +kernel
    have hzero : (0.0 / 1.0 : Float) = 0.0 := by decide
    have hnegative : (-0.0 / 1.0 : Float) = -0.0 := by decide
    have htotal : total [⟨7, 0.0⟩, ⟨7, -0.0⟩, ⟨9, 1.0⟩] = 1.0 := by decide
    rw [signedZeros, ofChoices_of_accepted (by decide) (by rw [htotal]; decide), htotal]
    simp only [scaled, hone, hzero, hnegative, List.map]
  · rintro seed ⟨c, hc, hid, hpos⟩
    rw [pick, winner_signedZeros] at hid
    simp only [signedZeros, List.mem_cons, List.not_mem_nil, or_false] at hc
    rcases hc with rfl | rfl | rfl
    · exact absurd hpos (by decide)
    · exact absurd hpos (by decide)
    · exact absurd hid (by decide)

end Distribution

end VirtualPeople
