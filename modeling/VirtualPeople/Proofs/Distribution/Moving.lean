import VirtualPeople.Proofs.Distribution.Weights
import Mathlib.Data.List.Nodup

/-!
# Where a seed moves

The winner of a distribution is the first choice with the least draw (`winner_firstLeast`). A choice
draws the same variate whatever else there is to choose from, and a larger weight draws no more
(`signedRank_draw_anti`). So if a seed picks `a` of one distribution and `b` of another, and `a` has
not lost weight and `b` has gained none, then neither of the two draws less than the other in either
distribution, and the one that comes first is picked of both (`lost_or_gained_of_moved`).
-/

namespace VirtualPeople

open Format (double)

namespace Distribution

/-- The first choice of the least score: those before it score more, those after it no less. -/
def FirstLeast (score : Choice → Int) (choices : List Choice) (w : Choice) : Prop :=
  ∃ before after, choices = before ++ w :: after ∧ (∀ c ∈ before, score w < score c) ∧
    ∀ c ∈ after, score w ≤ score c

namespace FirstLeast

variable {score : Choice → Int} {choices : List Choice} {w first c : Choice}

theorem le (h : FirstLeast score choices w) (hc : c ∈ choices) : score w ≤ score c := by
  obtain ⟨before, after, rfl, hbefore, hafter⟩ := h
  rcases List.mem_append.1 hc with hc | hc
  · exact (hbefore c hc).le
  · rcases List.mem_cons.1 hc with rfl | hc
    · exact le_rfl
    · exact hafter c hc

theorem cons (h : FirstLeast score choices w) (hlt : score w < score first) :
    FirstLeast score (first :: choices) w := by
  obtain ⟨before, after, rfl, hbefore, hafter⟩ := h
  exact ⟨first :: before, after, rfl, List.forall_mem_cons.2 ⟨hlt, hbefore⟩, hafter⟩

/-- A choice that scores no less than the first may stand behind it. -/
theorem insert (h : FirstLeast score (first :: choices) w) (hle : score first ≤ score c) :
    FirstLeast score (first :: c :: choices) w := by
  obtain ⟨before, after, heq, hbefore, hafter⟩ := h
  cases before with
  | nil =>
    obtain ⟨rfl, rfl⟩ := List.cons.inj heq
    exact ⟨[], c :: choices, rfl, nofun, List.forall_mem_cons.2 ⟨hle, hafter⟩⟩
  | cons b before =>
    obtain ⟨rfl, rfl⟩ := List.cons.inj heq
    obtain ⟨hfirst, hothers⟩ := List.forall_mem_cons.1 hbefore
    exact ⟨first :: c :: before, after, rfl, List.forall_mem_cons.2 ⟨hfirst,
      List.forall_mem_cons.2 ⟨hfirst.trans_le hle, hothers⟩⟩, hafter⟩

end FirstLeast

section

variable {variate : String → Float} {seed : String}

theorem least_firstLeast : ∀ (rest : List Choice) (first : Choice),
    (∀ c ∈ first :: rest, isNumber (draw variate seed c)) →
    FirstLeast (fun c => signedRank (draw variate seed c)) (first :: rest)
      (least variate seed first (draw variate seed first) rest)
  | [], first, _ => ⟨[], [], rfl, nofun, nofun⟩
  | c :: rest, first, hnumbers => by
    obtain ⟨hfirst, hothers⟩ := List.forall_mem_cons.1 hnumbers
    obtain ⟨hc, hrest⟩ := List.forall_mem_cons.1 hothers
    rw [least]
    split_ifs with hless
    · have hwins := least_firstLeast rest c hothers
      have hlt := ((double_lt_iff _ _).1 hless).2.2
      exact hwins.cons ((hwins.le List.mem_cons_self).trans_lt hlt)
    · have hwins := least_firstLeast rest first (List.forall_mem_cons.2 ⟨hfirst, hrest⟩)
      exact hwins.insert (Int.not_lt.1 fun hlt => hless ((double_lt_iff _ _).2 ⟨hc, hfirst, hlt⟩))

theorem winner_firstLeast {d : Distribution}
    (hnumbers : ∀ c ∈ d.toList, isNumber (draw variate seed c)) :
    FirstLeast (fun c => signedRank (draw variate seed c)) d.toList (d.winner variate seed) :=
  least_firstLeast d.rest d.first hnumbers

end

theorem isFinite_of_pos {w : Float} (h : IsWeight w) (hpos : 0.0 < w) : isFinite w := by
  rcases h with hzero | ⟨-, hfinite⟩
  · exact absurd hzero (zero_lt_double_iff.1 hpos).2.2.ne'
  · exact hfinite

section

variable {variate : String → Float} (hvariate : ∀ s, 0.0 ≤ variate s) {seed : String}

include hvariate

theorem isNumber_draw {c : Choice} (hc : 0.0 < c.weight) (hfinite : isFinite c.weight) :
    isNumber (draw variate seed c) :=
  ((double_le_iff _ _).1 (zero_le_div (hvariate _) hc hfinite)).2.1

/-- Of one number, the larger weight draws no more. -/
theorem signedRank_draw_anti {c c' : Choice} (hid : c.id = c'.id) (hc : 0.0 < c.weight)
    (hc' : 0.0 < c'.weight) (hfinite : isFinite c'.weight) (h : ¬ c'.weight < c.weight) :
    signedRank (draw variate seed c') ≤ signedRank (draw variate seed c) := by
  have hnumber := ((double_lt_iff _ _).1 hc).2.1
  have hnumber' := ((double_lt_iff _ _).1 hc').2.1
  have hle : c.weight ≤ c'.weight := (double_le_iff _ _).2 ⟨hnumber, hnumber', Int.not_lt.1
    fun hlt => h ((double_lt_iff _ _).2 ⟨hnumber', hnumber, hlt⟩)⟩
  rw [draw, draw, ← hid]
  exact ((double_le_iff _ _).1 (double_div_anti (hvariate _) hc hfinite hle)).2.2

end

/-- The place of the choice of a number. -/
def place (d : Distribution) (id : Nat) : Nat := (d.toList.map Choice.id).idxOf id

/-- A winner comes first and draws no more, or comes later and draws less. -/
theorem place_winner {d : Distribution} {score : Choice → Int} {w c : Choice}
    (hids : (d.toList.map Choice.id).Nodup) (hw : FirstLeast score d.toList w) (hc : c ∈ d.toList)
    (hne : c.id ≠ w.id) :
    d.place w.id < d.place c.id ∧ score w ≤ score c ∨
      d.place c.id < d.place w.id ∧ score w < score c := by
  obtain ⟨before, after, hlist, hbefore, hafter⟩ := hw
  unfold place
  rw [hlist] at hids hc ⊢
  rw [List.map_append, List.map_cons] at hids ⊢
  have hfresh : w.id ∉ before.map Choice.id := fun hmem =>
    (List.nodup_append.1 hids).2.2 _ hmem _ List.mem_cons_self rfl
  have hplace : (before.map Choice.id ++ w.id :: after.map Choice.id).idxOf w.id
      = (before.map Choice.id).length := by
    rw [List.idxOf_append_of_notMem hfresh, List.idxOf_cons_self, Nat.add_zero]
  rw [hplace]
  rcases List.mem_append.1 hc with hc | hc
  · have hmem : c.id ∈ before.map Choice.id := List.mem_map_of_mem hc
    rw [List.idxOf_append_of_mem hmem]
    exact .inr ⟨List.idxOf_lt_length_of_mem hmem, hbefore c hc⟩
  · have hc := (List.mem_cons.1 hc).resolve_left fun heq => hne (congrArg Choice.id heq)
    have hlater : c.id ∉ before.map Choice.id := fun hmem =>
      (List.nodup_append.1 hids).2.2 _ hmem _ (List.mem_cons_of_mem _ (List.mem_map_of_mem hc)) rfl
    rw [List.idxOf_append_of_notMem hlater, List.idxOf_cons_ne _ hne.symm]
    exact .inl ⟨by omega, hafter c hc⟩

/-- If a seed picks `a` of one distribution and `b` of another, and the two stand in the same order
in both, then `a` has lost weight from the first to the second or `b` has gained weight. A logarithm
need only be not positive up to one; `pick` takes `Float.log`. -/
theorem lost_or_gained_of_moved {choices choices' : List Choice} {d d' : Distribution}
    {ln : Float → Float} {seed : String} {a b : Nat} {p p' q q' : Float}
    (h : ofChoices choices = .ok d) (h' : ofChoices choices' = .ok d')
    (hpos : ∀ c ∈ d.toList, 0.0 < c.weight) (hpos' : ∀ c ∈ d'.toList, 0.0 < c.weight)
    (hids : (d.toList.map Choice.id).Nodup) (hids' : (d'.toList.map Choice.id).Nodup)
    (hln : ∀ u, 0.0 ≤ u → u ≤ 1.0 → ln u ≤ 0.0)
    (ha : (d.winner (exponentialBy ln) seed).id = a)
    (hb : (d'.winner (exponentialBy ln) seed).id = b) (hne : a ≠ b)
    (hp : ⟨a, p⟩ ∈ d.toList) (hq : ⟨b, q⟩ ∈ d.toList) (hp' : ⟨a, p'⟩ ∈ d'.toList)
    (hq' : ⟨b, q'⟩ ∈ d'.toList) (horder : d.place a < d.place b ↔ d'.place a < d'.place b) :
    p' < p ∨ q < q' := by
  have hvariate : ∀ s, 0.0 ≤ exponentialBy ln s := zero_le_exponentialBy hln
  have hfinite {c : Choice} (hc : c ∈ d.toList) : isFinite c.weight :=
    isFinite_of_pos (isWeight_of_mem h hc) (hpos c hc)
  have hfinite' {c : Choice} (hc : c ∈ d'.toList) : isFinite c.weight :=
    isFinite_of_pos (isWeight_of_mem h' hc) (hpos' c hc)
  have hwins : FirstLeast (fun c => signedRank (draw (exponentialBy ln) seed c)) d.toList _ :=
    winner_firstLeast fun c hc => isNumber_draw hvariate (hpos c hc) (hfinite hc)
  have hwins' : FirstLeast (fun c => signedRank (draw (exponentialBy ln) seed c)) d'.toList _ :=
    winner_firstLeast fun c hc => isNumber_draw hvariate (hpos' c hc) (hfinite' hc)
  rw [List.inj_on_of_nodup_map hids (winner_mem d _ seed) hp ha] at hwins
  rw [List.inj_on_of_nodup_map hids' (winner_mem d' _ seed) hq' hb] at hwins'
  have hfirst := place_winner hids hwins hq hne.symm
  have hsecond := place_winner hids' hwins' hp' hne
  -- Otherwise `a` draws no less of the first than of the second, and `b` no less of the second than
  -- of the first, so each would have to come before the other.
  by_contra hkept
  obtain ⟨hlost, hgained⟩ := not_or.1 hkept
  have hdraw : signedRank (draw (exponentialBy ln) seed ⟨a, p'⟩)
      ≤ signedRank (draw (exponentialBy ln) seed ⟨a, p⟩) :=
    signedRank_draw_anti hvariate rfl (hpos _ hp) (hpos' _ hp') (hfinite' hp') hlost
  have hdraw' : signedRank (draw (exponentialBy ln) seed ⟨b, q⟩)
      ≤ signedRank (draw (exponentialBy ln) seed ⟨b, q'⟩) :=
    signedRank_draw_anti hvariate rfl (hpos' _ hq') (hpos _ hq) (hfinite hq) hgained
  simp only at hfirst hsecond
  omega

/-- Equal weights, and the same choices with weight moved from the first to the second. -/
def halves : Distribution := ⟨⟨0, 0.5⟩, [⟨1, 0.5⟩]⟩

def quarters : Distribution := ⟨⟨0, 0.25⟩, [⟨1, 0.75⟩]⟩

/-- The logarithm at the uniform variates that the two choices draw from `f`. -/
def logarithmsOfF (u : Float) : Float :=
  if u = 0.45201785002637046 then -0.7940336087208789
  else if u = 0.41972588170659936 then -0.8681534433850114
  else -1.0

theorem lost_or_gained_of_moved_f :
    ofChoices [⟨0, 0.5⟩, ⟨1, 0.5⟩] = .ok halves ∧ ofChoices [⟨0, 0.25⟩, ⟨1, 0.75⟩] = .ok quarters ∧
      (∀ c ∈ halves.toList, 0.0 < c.weight) ∧ (∀ c ∈ quarters.toList, 0.0 < c.weight) ∧
      (∀ u, 0.0 ≤ u → u ≤ 1.0 → logarithmsOfF u ≤ 0.0) ∧
      (halves.winner (exponentialBy logarithmsOfF) "f").id = 0 ∧
      (quarters.winner (exponentialBy logarithmsOfF) "f").id = 1 ∧
      ((0.25 : Float) < 0.5 ∨ (0.5 : Float) < 0.75) := by
  have hhalf : (0.5 / 1.0 : Float) = 0.5 := by decide +kernel
  have hquarter : (0.25 / 1.0 : Float) = 0.25 := by decide +kernel
  have hquarters : (0.75 / 1.0 : Float) = 0.75 := by decide +kernel
  have hok : ofChoices [⟨0, 0.5⟩, ⟨1, 0.5⟩] = .ok halves := by
    have htotal : total [⟨0, 0.5⟩, ⟨1, 0.5⟩] = 1.0 := by decide +kernel
    rw [ofChoices_of_accepted (by decide) (by rw [htotal]; decide), htotal]
    simp only [scaled, hhalf, List.map, halves]
  have hok' : ofChoices [⟨0, 0.25⟩, ⟨1, 0.75⟩] = .ok quarters := by
    have htotal : total [⟨0, 0.25⟩, ⟨1, 0.75⟩] = 1.0 := by decide +kernel
    rw [ofChoices_of_accepted (by decide) (by rw [htotal]; decide), htotal]
    simp only [scaled, hquarter, hquarters, List.map, quarters]
  have hpos : ∀ c ∈ halves.toList, 0.0 < c.weight := by
    simp only [halves, toList, List.forall_mem_cons]
    exact ⟨by decide, by decide, List.forall_mem_nil _⟩
  have hpos' : ∀ c ∈ quarters.toList, 0.0 < c.weight := by
    simp only [quarters, toList, List.forall_mem_cons]
    exact ⟨by decide, by decide, List.forall_mem_nil _⟩
  have hln : ∀ u, 0.0 ≤ u → u ≤ 1.0 → logarithmsOfF u ≤ 0.0 := by
    intro u _ _
    unfold logarithmsOfF
    split_ifs <;> decide
  have ha : (halves.winner (exponentialBy logarithmsOfF) "f").id = 0 := by decide +kernel
  have hb : (quarters.winner (exponentialBy logarithmsOfF) "f").id = 1 := by decide +kernel
  exact ⟨hok, hok', hpos, hpos', hln, ha, hb, lost_or_gained_of_moved hok hok' hpos hpos'
    (by decide) (by decide) hln ha hb (by decide) List.mem_cons_self
    (List.mem_cons_of_mem _ List.mem_cons_self) List.mem_cons_self
    (List.mem_cons_of_mem _ List.mem_cons_self) (by decide)⟩

end Distribution

end VirtualPeople
