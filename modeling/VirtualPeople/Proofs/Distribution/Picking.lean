import VirtualPeople.Distribution
import VirtualPeople.Proofs.Outcome
import Mathlib.Data.List.Basic
import Mathlib.Tactic.SplitIfs

/-!
# Picked numbers

The winner of a distribution is one of its choices, and building a distribution keeps the numbers of
the choices. So a distribution of weights picks the place of one of them (`pick_lt`).
-/

namespace VirtualPeople

namespace Distribution

/-- A choice with its weight divided by a sum. -/
def scaled (sum : Float) (c : Choice) : Choice := ⟨c.id, c.weight / sum⟩

theorem ofChoices_eq_ok {choices : List Choice} {d : Distribution}
    (h : ofChoices choices = .ok d) :
    (∀ c ∈ choices, ¬ c.weight < 0.0) ∧ isNearOne (total choices) ∧
      d.toList = choices.map (scaled (total choices)) := by
  rcases choices with _ | ⟨first, rest⟩
  · exact (invalidModel_ne_ok h).elim
  · unfold ofChoices at h
    simp only at h
    split at h
    · exact (invalidModel_ne_ok h).elim
    · rename_i hfind
      split_ifs at h with hsum
      · cases h
        refine ⟨fun c hc => ?_, hsum, rfl⟩
        simpa using List.find?_eq_none.1 hfind c hc
      · exact (invalidModel_ne_ok h).elim

theorem ofChoices_of_accepted {first : Choice} {rest : List Choice}
    (hweights : ∀ c ∈ first :: rest, ¬ c.weight < 0.0)
    (hsum : isNearOne (total (first :: rest))) :
    ofChoices (first :: rest) =
      .ok ⟨scaled (total (first :: rest)) first, rest.map (scaled (total (first :: rest)))⟩ := by
  have hfind : (first :: rest).find? (fun c => c.weight < 0.0) = none :=
    List.find?_eq_none.2 fun c hc => by simpa using hweights c hc
  unfold ofChoices
  simp only [hfind, hsum, if_true]
  rfl

variable {variate : String → Float} {seed : String}

theorem least_mem : ∀ (choices : List Choice) (best : Choice) (drawn : Float),
    least variate seed best drawn choices ∈ best :: choices
  | [], best, _ => List.mem_singleton_self best
  | c :: rest, best, drawn => by
    rw [least]
    split_ifs with hless
    · exact List.mem_cons_of_mem best (least_mem rest c _)
    · rcases List.mem_cons.1 (least_mem rest best drawn) with heq | hmem
      · rw [heq]
        exact List.mem_cons_self
      · exact List.mem_cons_of_mem best (List.mem_cons_of_mem c hmem)

theorem winner_mem (d : Distribution) (variate : String → Float) (seed : String) :
    d.winner variate seed ∈ d.toList :=
  least_mem d.rest d.first _

theorem pick_lt {weights : List Float} {d : Distribution} (h : ofWeights weights = .ok d)
    (seed : String) : d.pick seed < weights.length := by
  obtain ⟨-, -, hlist⟩ := ofChoices_eq_ok h
  have hmem := winner_mem d exponential seed
  rw [hlist] at hmem
  obtain ⟨c, hc, hwinner⟩ := List.mem_map.1 hmem
  obtain ⟨i, hi, rfl⟩ := List.mem_mapIdx.1 hc
  rw [pick, ← hwinner]
  exact hi

end Distribution

end VirtualPeople
