import VirtualPeople.Proofs.Pools.Growing

/-!
# Pools as they are scanned

Pools can be laid out just when they have between one person and `maxPopulation` people and every
pool with people ends at or before the largest id (`IdSpace.exists_ofPools_iff`). The table of
segments is in ascending order, so a number parts it into the segments up to the one that the number
lies in and those behind (`IdSpace.parts_locate`), and that segment is the one of the pool that a
scan of the pools in their order comes to (`IdSpace.locate_of_serves`). So a seed gets the person
with its number among the people of that pool (`IdSpace.ofPools_iff_scan`).
-/

namespace VirtualPeople

namespace Pool

/-- The pool at a place has the person with a number among all people of pools. -/
def Serves (pools : List Pool) (place : Nat) (p : Pool) (number : Nat) : Prop :=
  pools[place]? = some p ∧ people (pools.take place) ≤ number ∧
    number < people (pools.take place) + p.population.toNat

/-- Between one person and the most that can be numbered, and no id beyond the largest. -/
structure CanBeLaidOut (pools : List Pool) : Prop where
  people_pos : 1 ≤ people pools
  people_le : people pools ≤ 2147483647
  last_le : ∀ p ∈ pools, 0 < p.population.toNat →
    p.offset.toNat + p.population.toNat - 1 ≤ 9223372036854775807

theorem people_take_succ {pools : List Pool} {place : Nat} {p : Pool}
    (h : pools[place]? = some p) :
    people (pools.take (place + 1)) = people (pools.take place) + p.population.toNat := by
  rw [List.take_add_one, h, people_append]
  rfl

theorem people_take_le (pools : List Pool) {i j : Nat} (h : i ≤ j) :
    people (pools.take i) ≤ people (pools.take j) := by
  obtain ⟨more, rfl⟩ := Nat.exists_eq_add_of_le h
  rw [List.take_add, people_append]
  exact Nat.le_add_right _ _

namespace Serves

variable {pools : List Pool} {place place' number : Nat} {p p' : Pool}

theorem le (h : Serves pools place p number) (h' : Serves pools place' p' number) :
    place ≤ place' := by
  by_contra hlt
  have hmore := people_take_le pools (Nat.lt_of_not_le hlt : place' + 1 ≤ place)
  rw [people_take_succ h'.1] at hmore
  exact absurd h'.2.2 (Nat.not_lt.2 (hmore.trans h.2.1))

/-- No two places have the person with one number. -/
theorem unique (h : Serves pools place p number) (h' : Serves pools place' p' number) :
    place = place' ∧ p = p' := by
  obtain rfl := Nat.le_antisymm (h.le h') (h'.le h)
  exact ⟨rfl, Option.some.inj (h.1.symm.trans h'.1)⟩

end Serves

theorem exists_serves : ∀ {pools : List Pool} (number : Nat), number < people pools →
    ∃ place p, Serves pools place p number
  | [], _, h => absurd h (Nat.not_lt_zero _)
  | p :: rest, number, h => by
    rw [people] at h
    rcases Nat.lt_or_ge number p.population.toNat with hfirst | hlater
    · exact ⟨0, p, rfl, Nat.zero_le _, by simpa [people] using hfirst⟩
    · obtain ⟨place, q, hq, hle, hlt⟩ := exists_serves (number - p.population.toNat)
        (by omega : _ < people rest)
      refine ⟨place + 1, q, hq, ?_⟩
      rw [List.take_succ_cons, people]
      omega

end Pool

namespace IdSpace

open Pool (people Serves CanBeLaidOut people_take_succ)

/-- The segments in their order. -/
def table (s : IdSpace) : List Segment := s.first :: s.rest

/-- A place parts a table at a number: the segments before it start at or before the number, the
others start after it. -/
def Parts (table : List Segment) (number : Int) (place : Nat) : Prop :=
  ∀ j t, table[j]? = some t → (t.start ≤ number ↔ j < place)

theorem exists_layOut : ∀ {pools : List Pool} (start : Nat), start + people pools ≤ maxId →
    (∀ p ∈ pools, 0 < p.population.toNat → p.offset.toNat + p.population.toNat - 1 ≤ maxId) →
    ∃ segments, layOut start pools = .ok (segments, start + people pools)
  | [], start, _, _ => ⟨[], rfl⟩
  | p :: rest, start, hpeople, hlast => by
    rw [people] at hpeople ⊢
    have hfirst := hlast p List.mem_cons_self
    have hrest := fun q hq => hlast q (List.mem_cons_of_mem p hq)
    obtain ⟨offset, population⟩ := p
    unfold layOut
    by_cases hzero : population = 0
    · subst hzero
      obtain ⟨segments, h⟩ := exists_layOut start (by omega) hrest
      rw [if_pos rfl, h]
      exact ⟨segments, by simp⟩
    · have hpos : 0 < population.toNat := by
        have hne : population.toNat ≠ 0 := fun hc => hzero (UInt64.toNat_inj.1 hc)
        omega
      have hend := hfirst hpos
      simp only at hend hpeople
      obtain ⟨segments, h⟩ := exists_layOut (start + population.toNat) (by omega) hrest
      rw [if_neg hzero, if_neg (by omega), if_neg (by omega), if_neg (by omega), h]
      exact ⟨⟨start, offset.toNat⟩ :: segments, by simp [bind, Except.bind, pure, Except.pure,
        Nat.add_assoc]⟩

theorem people_of_layOut_nil : ∀ {pools : List Pool} {start total : Nat},
    layOut start pools = .ok ([], total) → people pools = 0
  | [], _, _, _ => rfl
  | p :: rest, start, total, h => by
    rcases layOut_cons h with ⟨hzero, hrest⟩ | ⟨-, others, -, hcons⟩
    · rw [people, hzero, people_of_layOut_nil hrest]
    · cases hcons

/-- The segments of pools ascend from the start on. -/
theorem sorted_of_layOut : ∀ {pools : List Pool} {start total : Nat} {segments : List Segment},
    layOut start pools = .ok (segments, total) →
      segments.Pairwise (·.start < ·.start) ∧ ∀ t ∈ segments, start ≤ t.start
  | [], _, _, _, h => by
    cases h
    exact ⟨.nil, nofun⟩
  | p :: rest, start, total, segments, h => by
    rcases layOut_cons h with ⟨-, hrest⟩ | ⟨hpos, others, hrest, rfl⟩
    · exact sorted_of_layOut hrest
    · obtain ⟨hsorted, hle⟩ := sorted_of_layOut hrest
      have hlt : ∀ t ∈ others, start < t.start := fun t ht => by
        have := hle t ht
        omega
      exact ⟨.cons hlt hsorted, List.forall_mem_cons.2 ⟨le_rfl, fun t ht => (hlt t ht).le⟩⟩

/-- Which pools have ids for all their people. -/
theorem exists_ofPools_iff {pools : List Pool} :
    (∃ s, ofPools pools = .ok s) ↔ CanBeLaidOut pools := by
  constructor
  · rintro ⟨s, h⟩
    obtain ⟨-, hpos, hmax⟩ := people_of_ofPools h
    refine ⟨hpos, hmax, fun p hp hpopulation => ?_⟩
    have hid := le_maxId_of_layOut (ofPools_eq_ok h).1 p hp
      (p.offset.toNat + p.population.toNat - 1) ⟨by omega, by omega⟩
    have hbound : maxId = 9223372036854775807 := rfl
    omega
  · rintro ⟨hpos, hmax, hlast⟩
    have hbound : maxId = 9223372036854775807 := rfl
    have hmost : maxPopulation = 2147483647 := rfl
    obtain ⟨segments, h⟩ := exists_layOut 0 (by omega) hlast
    rw [Nat.zero_add] at h
    unfold ofPools
    rw [h]
    rcases segments with _ | ⟨first, rest⟩
    · have := people_of_layOut_nil h
      omega
    · exact ⟨⟨people pools, first, rest⟩, if_neg (by omega)⟩

/-- The segment that a number is led to is the last one that starts at or before it. -/
theorem parts_locate (number : Int) : ∀ {current : Segment} {segments : List Segment},
    (current :: segments).Pairwise (·.start < ·.start) → current.start ≤ number →
    ∃ place, (current :: segments)[place]? = some (locate number current segments) ∧
      Parts (current :: segments) number (place + 1)
  | current, [], _, h => by
    refine ⟨0, rfl, fun j t ht => ?_⟩
    obtain ⟨rfl, rfl⟩ : j = 0 ∧ current = t := by simpa [List.getElem?_cons] using ht
    exact iff_of_true h Nat.one_pos
  | current, next :: rest, hsorted, h => by
    obtain ⟨hcurrent, hrest⟩ := List.pairwise_cons.1 hsorted
    unfold locate
    split_ifs with hnext
    · obtain ⟨place, hplace, hparts⟩ := parts_locate number hrest hnext
      refine ⟨place + 1, hplace, fun j t ht => ?_⟩
      rcases j with _ | j
      · cases ht
        exact iff_of_true h (Nat.succ_pos _)
      · rw [hparts j t ht]
        exact Nat.succ_lt_succ_iff.symm
    · refine ⟨0, rfl, fun j t ht => ?_⟩
      rcases j with _ | j
      · cases ht
        exact iff_of_true h Nat.one_pos
      · have ht : (next :: rest)[j]? = some t := ht
        have hle : next.start ≤ t.start := by
          rcases List.mem_cons.1 (List.mem_of_getElem? ht) with rfl | hmem
          · exact le_rfl
          · exact ((List.pairwise_cons.1 hrest).1 t hmem).le
        exact iff_of_false (by omega) (by omega)

/-- The segment that a number is led to is that of the pool that has the person with the number. -/
theorem locate_of_serves {number : Nat} {p : Pool} : ∀ {pools : List Pool} {start total place : Nat}
    {segments : List Segment} (current : Segment), layOut start pools = .ok (segments, total) →
    Serves pools place p (number - start) → start ≤ number →
    locate number current segments = ⟨start + people (pools.take place), p.offset.toNat⟩
  | [], _, _, place, _, _, _, hp, _ => by
    obtain ⟨hp, -⟩ := hp
    cases hp
  | q :: rest, start, total, place, segments, current, h, ⟨hp, hle, hlt⟩, hstart => by
    rcases place with _ | place
    · obtain rfl : q = p := Option.some.inj hp
      rw [List.take_zero, people, Nat.zero_add] at hlt
      rcases layOut_cons h with ⟨hzero, -⟩ | ⟨-, others, hrest, rfl⟩
      · omega
      · rw [locate, if_pos (by simpa using hstart)]
        refine locate_of_lt fun t ht => ?_
        obtain ⟨others, rfl⟩ := List.head?_eq_some_iff.1 ht
        have := (start_of_layOut hrest).1
        omega
    · rw [List.take_succ_cons, people] at hle hlt ⊢
      have hserves : Serves rest place p (number - (start + q.population.toNat)) :=
        ⟨hp, by omega, by omega⟩
      rcases layOut_cons h with ⟨hzero, hrest⟩ | ⟨-, others, hrest, rfl⟩
      · rw [hzero, Nat.add_zero] at hserves
        rw [hzero, Nat.zero_add]
        exact locate_of_serves current hrest hserves hstart
      · rw [locate, if_pos (by simpa using hstart),
          locate_of_serves ⟨start, q.offset.toNat⟩ hrest hserves (by omega), Nat.add_assoc]

/-- Pools are accepted just when their people can be numbered and their ids fit a signed 64-bit
word. A seed is hashed to a number, which lies in one pool of a scan, and gets the id of that pool
that is as far behind its first id as the number is behind the people before the pool. The search
for the pool ends at the one place that parts the table at the number, and no value on the way
leaves the signed 64-bit words. -/
theorem ofPools_iff_scan (pools : List Pool) :
    ((∃ s, ofPools pools = .ok s) ↔ CanBeLaidOut pools) ∧
      ∀ s, ofPools pools = .ok s → s.total = people pools ∧
        s.table.Pairwise (·.start < ·.start) ∧
        ∀ seed, ∃ i : Nat, jumpHash seed (people pools) = i ∧ i ≤ 2147483647 ∧
          (∃! place, ∃ p, Serves pools place p i) ∧
          ∀ place p, Serves pools place p i →
            (∃ j, Parts s.table i (j + 1) ∧
              s.table[j]? = some ⟨people (pools.take place), p.offset.toNat⟩) ∧
            s.personId seed = p.offset.toNat + (i - people (pools.take place)) ∧
            p.offset.toNat + (i - people (pools.take place)) ≤ 9223372036854775807 := by
  refine ⟨exists_ofPools_iff, fun s h => ?_⟩
  obtain ⟨hlay, -⟩ := ofPools_eq_ok h
  obtain ⟨htotal, hpos, hmax⟩ := people_of_ofPools h
  have hsorted : s.table.Pairwise (·.start < ·.start) := (sorted_of_layOut hlay).1
  have hstart := (start_of_layOut hlay).1
  refine ⟨htotal, hsorted, fun seed => ?_⟩
  obtain ⟨i, hlt, hi⟩ := jumpHash_lt hpos seed
  obtain ⟨place, p, hserves⟩ := Pool.exists_serves i hlt
  refine ⟨i, hi, by omega, ⟨place, ⟨p, hserves⟩, fun other ⟨q, hq⟩ => (hq.unique hserves).1⟩, ?_⟩
  intro place' p' hserves'
  obtain ⟨rfl, rfl⟩ := hserves'.unique hserves
  have hfound : locate i s.first s.rest = ⟨people (pools.take place'), p'.offset.toNat⟩ := by
    have hfirst : locate i s.first (s.first :: s.rest) = locate i s.first s.rest := by
      rw [locate, if_pos (by omega)]
    rw [← hfirst, locate_of_serves s.first hlay hserves' (Nat.zero_le i), Nat.zero_add]
  obtain ⟨hp, hle, hbelow⟩ := hserves'
  have hlast := (exists_ofPools_iff.1 ⟨s, h⟩).last_le p' (List.mem_of_getElem? hp) (by omega)
  refine ⟨?_, ?_, by omega⟩
  · obtain ⟨j, hj, hparts⟩ := parts_locate i hsorted (by omega)
    rw [hfound] at hj
    exact ⟨j, hparts, hj⟩
  · rw [personId, htotal, hi]
    simp only [hfound]
    omega

/-- An empty pool stands between two others, the last of which ends at the largest id. -/
def upToLargestId : List Pool := [⟨10, 5⟩, ⟨7, 0⟩, ⟨9223372036854775798, 10⟩]

theorem ofPools_iff_scan_largestId :
    ofPools upToLargestId = .ok ⟨15, ⟨0, 10⟩, [⟨5, 9223372036854775798⟩]⟩ ∧
      ∀ seed, ∃ i : Nat, jumpHash seed 15 = i ∧
        ∀ place p, Serves upToLargestId place p i →
          personId ⟨15, ⟨0, 10⟩, [⟨5, 9223372036854775798⟩]⟩ seed =
              p.offset.toNat + (i - people (upToLargestId.take place)) ∧
            p.offset.toNat + (i - people (upToLargestId.take place)) ≤ 9223372036854775807 := by
  have hs : ofPools upToLargestId = .ok ⟨15, ⟨0, 10⟩, [⟨5, 9223372036854775798⟩]⟩ := rfl
  refine ⟨hs, fun seed => ?_⟩
  obtain ⟨-, -, hscan⟩ := (ofPools_iff_scan upToLargestId).2 _ hs
  obtain ⟨i, hi, -, -, hid⟩ := hscan seed
  exact ⟨i, hi, fun place p hserves => (hid place p hserves).2⟩

end IdSpace

end VirtualPeople
