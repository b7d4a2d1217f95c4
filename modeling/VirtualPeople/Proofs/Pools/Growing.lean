import VirtualPeople.Pools
import VirtualPeople.Proofs.Hash.Jump
import VirtualPeople.Proofs.Outcome

/-!
# Pools that grow

`Pool.idAt` reads the people of pools in their order. The segment that a number is led to gives the
id that stands there (`IdSpace.idAt_locate`), so a seed always gets an id of one of the pools
(`IdSpace.personId_eq_idAt`). Where the last pool gets more people and pools are added behind it,
the people that were there keep their numbers, and the jump hash leads a seed to the number that it
had or to a new one; so it keeps its id or gets one that was added (`IdSpace.personId_stable`).
-/

namespace VirtualPeople

namespace Pool

/-- The id is one of the pool's. -/
def Has (p : Pool) (id : Int) : Prop :=
  p.offset.toNat ≤ id ∧ id < p.offset.toNat + p.population.toNat

/-- How many people pools have. -/
def people : List Pool → Nat
  | [] => 0
  | p :: rest => p.population.toNat + people rest

/-- The id of the person with a number among all people of pools. -/
def idAt : List Pool → Nat → Option Nat
  | [], _ => none
  | p :: rest, number =>
    if number < p.population.toNat then some (p.offset.toNat + number)
    else idAt rest (number - p.population.toNat)

@[simp]
theorem people_append (A B : List Pool) : people (A ++ B) = people A + people B := by
  induction A with
  | nil => simp [people]
  | cons p A ih => simp [people, ih, Nat.add_assoc]

theorem idAt_append_left {B : List Pool} : ∀ {A : List Pool} {number : Nat}, number < people A →
    idAt (A ++ B) number = idAt A number
  | [], _, h => absurd h (Nat.not_lt_zero _)
  | p :: A, number, h => by
    simp only [people] at h
    simp only [List.cons_append, idAt]
    split_ifs with hp
    · rfl
    · exact idAt_append_left (by omega)

theorem idAt_append_right {B : List Pool} : ∀ {A : List Pool} {number : Nat}, people A ≤ number →
    idAt (A ++ B) number = idAt B (number - people A)
  | [], number, _ => by simp [people]
  | p :: A, number, h => by
    simp only [people] at h
    simp only [List.cons_append, idAt, people]
    rw [if_neg (by omega), idAt_append_right (by omega), Nat.sub_sub]

theorem has_of_idAt : ∀ {pools : List Pool} {number id : Nat}, idAt pools number = some id →
    ∃ p ∈ pools, p.Has id
  | [], _, _, h => by simp [idAt] at h
  | p :: rest, number, id, h => by
    simp only [idAt] at h
    split_ifs at h with hp
    · simp only [Option.some.injEq] at h
      refine ⟨p, List.mem_cons_self, ?_⟩
      unfold Has
      omega
    · obtain ⟨q, hq, hid⟩ := has_of_idAt h
      exact ⟨q, List.mem_cons_of_mem _ hq, hid⟩

end Pool

namespace IdSpace

open Pool (people people_append idAt idAt_append_left idAt_append_right)

/-- A pool without people leaves no segment; any other stands before the segments of the rest. -/
theorem layOut_cons {start : Nat} {p : Pool} {rest : List Pool} {segments : List Segment}
    {total : Nat} (h : layOut start (p :: rest) = .ok (segments, total)) :
    p.population.toNat = 0 ∧ layOut start rest = .ok (segments, total) ∨
      0 < p.population.toNat ∧ ∃ others,
        layOut (start + p.population.toNat) rest = .ok (others, total) ∧
          segments = ⟨start, p.offset.toNat⟩ :: others := by
  obtain ⟨offset, population⟩ := p
  unfold layOut at h
  split_ifs at h with hzero
  · exact .inl ⟨by simp [hzero], h⟩
  · exact (invalidModel_ne_ok h).elim
  · exact (invalidModel_ne_ok h).elim
  · exact (invalidModel_ne_ok h).elim
  · have hpos : 0 < population.toNat := by
      have hne : population.toNat ≠ 0 := fun hc => hzero (UInt64.toNat_inj.1 hc)
      omega
    simp only [bind_eq_ok, pure_eq_ok, Prod.exists, Prod.mk.injEq] at h
    obtain ⟨others, total', hrest, rfl, rfl⟩ := h
    exact .inr ⟨hpos, others, hrest, rfl⟩

theorem total_of_layOut : ∀ {pools : List Pool} {start total : Nat} {segments : List Segment},
    layOut start pools = .ok (segments, total) → total = start + people pools
  | [], start, total, segments, h => by
    cases h
    rfl
  | p :: rest, start, total, segments, h => by
    unfold people
    rcases layOut_cons h with ⟨hzero, hrest⟩ | ⟨-, others, hrest, -⟩
    · have := total_of_layOut hrest
      omega
    · have := total_of_layOut hrest
      omega

theorem start_of_layOut : ∀ {pools : List Pool} {start total : Nat} {s : Segment}
    {segments : List Segment}, layOut start pools = .ok (s :: segments, total) →
    s.start = start ∧ start < total
  | [], _, _, _, _, h => by cases h
  | p :: rest, start, total, s, segments, h => by
    rcases layOut_cons h with ⟨hzero, hrest⟩ | ⟨hpos, others, hrest, heq⟩
    · have := start_of_layOut hrest
      omega
    · have htotal := total_of_layOut hrest
      cases heq
      exact ⟨rfl, by omega⟩

/-- The ids of pools that are laid out fit a signed 64-bit word. -/
theorem le_maxId_of_layOut : ∀ {pools : List Pool} {start total : Nat} {segments : List Segment},
    layOut start pools = .ok (segments, total) → ∀ p ∈ pools, ∀ id, p.Has id → id ≤ maxId
  | [], _, _, _, _, _, hp, _, _ => (List.not_mem_nil hp).elim
  | q :: rest, start, total, segments, h, p, hp, id, hid => by
    rcases List.mem_cons.1 hp with rfl | hp
    · unfold layOut at h
      unfold Pool.Has at hid
      split_ifs at h with hzero hoffset hlast htotal
      · rw [hzero] at hid
        have hnone : (0 : UInt64).toNat = 0 := rfl
        omega
      · exact (invalidModel_ne_ok h).elim
      · exact (invalidModel_ne_ok h).elim
      · exact (invalidModel_ne_ok h).elim
      · omega
    · rcases layOut_cons h with ⟨-, hrest⟩ | ⟨-, others, hrest, -⟩
      · exact le_maxId_of_layOut hrest p hp id hid
      · exact le_maxId_of_layOut hrest p hp id hid

theorem locate_of_lt {number : Nat} {current : Segment} {segments : List Segment}
    (h : ∀ s ∈ segments.head?, number < s.start) : locate number current segments = current := by
  rcases segments with _ | ⟨s, segments⟩
  · rfl
  · have hs := h s rfl
    unfold locate
    rw [if_neg (by omega)]

/-- The segment that a number is led to gives the id of the person with that number. -/
theorem idAt_locate {number : Nat} : ∀ {pools : List Pool} {start total : Nat}
    {segments : List Segment} (current : Segment),
    layOut start pools = .ok (segments, total) → start ≤ number → number < total →
    ∃ id : Nat, idAt pools (number - start) = some id ∧
      (id : Int) = number - (locate number current segments).start
        + (locate number current segments).offset
  | [], start, total, segments, current, h, hle, hlt => by
    cases h
    omega
  | p :: rest, start, total, segments, current, h, hle, hlt => by
    rcases layOut_cons h with ⟨hzero, hrest⟩ | ⟨hpos, others, hrest, rfl⟩
    · rw [idAt, if_neg (by omega), hzero, Nat.sub_zero]
      exact idAt_locate current hrest hle hlt
    · have hfirst : locate number current (⟨start, p.offset.toNat⟩ :: others)
          = locate number ⟨start, p.offset.toNat⟩ others := by
        rw [locate, if_pos (by simpa using hle)]
      rw [hfirst, idAt]
      split_ifs with hp
      · have hlocate : locate number ⟨start, p.offset.toNat⟩ others = ⟨start, p.offset.toNat⟩ := by
          refine locate_of_lt fun s hs => ?_
          obtain ⟨others, rfl⟩ := List.head?_eq_some_iff.1 hs
          have := (start_of_layOut hrest).1
          omega
        rw [hlocate]
        exact ⟨_, rfl, by simp only; omega⟩
      · obtain ⟨id, hid, heq⟩ := idAt_locate ⟨start, p.offset.toNat⟩ hrest (by omega) hlt
        rw [Nat.sub_sub]
        exact ⟨id, hid, heq⟩

theorem ofPools_eq_ok {pools : List Pool} {s : IdSpace} (h : ofPools pools = .ok s) :
    layOut 0 pools = .ok (s.first :: s.rest, s.total) ∧ s.total ≤ maxPopulation := by
  simp only [ofPools, bind_eq_ok] at h
  obtain ⟨⟨segments, total⟩, hlay, h⟩ := h
  rcases segments with _ | ⟨first, rest⟩
  · exact (invalidModel_ne_ok h).elim
  · simp only at h
    split_ifs at h with hmax
    · exact (invalidModel_ne_ok h).elim
    · obtain rfl := pure_eq_ok.1 h
      exact ⟨hlay, Nat.not_lt.1 hmax⟩

theorem people_of_ofPools {pools : List Pool} {s : IdSpace} (h : ofPools pools = .ok s) :
    s.total = people pools ∧ 1 ≤ people pools ∧ people pools ≤ 2147483647 := by
  obtain ⟨hlay, hmax⟩ := ofPools_eq_ok h
  have hpos := (start_of_layOut hlay).2
  have htotal := total_of_layOut hlay
  have hbound : maxPopulation = 2147483647 := rfl
  omega

/-- A seed gets the id of the person whose number it is hashed to. -/
theorem personId_eq_idAt {pools : List Pool} {s : IdSpace} (h : ofPools pools = .ok s)
    (seed : UInt64) :
    ∃ number < people pools, jumpHash seed (people pools) = number ∧
      ∃ id : Nat, idAt pools number = some id ∧ s.personId seed = id := by
  obtain ⟨hlay, -⟩ := ofPools_eq_ok h
  obtain ⟨htotal, hpos, -⟩ := people_of_ofPools h
  obtain ⟨number, hlt, hnumber⟩ := jumpHash_lt hpos seed
  obtain ⟨id, hid, heq⟩ := idAt_locate s.first hlay (Nat.zero_le number) (by omega)
  refine ⟨number, hlt, hnumber, id, hid, ?_⟩
  have hfirst : locate number s.first (s.first :: s.rest) = locate number s.first s.rest := by
    have hstart := (start_of_layOut hlay).1
    rw [locate, if_pos (by omega)]
  rw [hfirst] at heq
  rw [personId, htotal, hnumber]
  exact heq.symm

/-- A seed gets an id of one of the pools. -/
theorem has_personId {pools : List Pool} {s : IdSpace} (h : ofPools pools = .ok s)
    (seed : UInt64) : ∃ p ∈ pools, p.Has (s.personId seed) := by
  obtain ⟨number, -, -, id, hid, heq⟩ := personId_eq_idAt h seed
  rw [heq]
  exact Pool.has_of_idAt hid

/-- Where the last pool gets more people and pools are added behind it, a seed keeps its id or gets
one of the added ones. -/
theorem personId_stable {A B : List Pool} {offset few many : UInt64} (hle : few ≤ many)
    {s t : IdSpace} (hs : ofPools (A ++ [⟨offset, few⟩]) = .ok s)
    (ht : ofPools (A ++ [⟨offset, many⟩] ++ B) = .ok t) (seed : UInt64) :
    t.personId seed = s.personId seed ∨
      (offset.toNat + few.toNat ≤ t.personId seed ∧
        t.personId seed < offset.toNat + many.toNat) ∨
      ∃ p ∈ B, p.Has (t.personId seed) := by
  obtain ⟨-, hpos, -⟩ := people_of_ofPools hs
  obtain ⟨-, -, hmax⟩ := people_of_ofPools ht
  obtain ⟨i, hi, hjump, id, hid, hperson⟩ := personId_eq_idAt hs seed
  obtain ⟨j, hj, hjump', id', hid', hperson'⟩ := personId_eq_idAt ht seed
  have hfew : people (A ++ [⟨offset, few⟩]) = people A + few.toNat := by simp [people]
  have hmany : people (A ++ [⟨offset, many⟩] ++ B) = people A + many.toNat + people B := by
    simp [people, Nat.add_assoc]
  rw [hfew] at hpos hi hjump
  rw [hmany] at hmax hj hjump'
  have hmore : few.toNat ≤ many.toNat := hle
  have hgrow := jumpHash_eq_or_le hpos (by omega : _ ≤ people A + many.toNat + people B)
    (by omega) seed
  rw [hjump, hjump'] at hgrow
  rw [hperson, hperson']
  rw [List.append_assoc] at hid'
  rcases Nat.lt_or_ge j (people A) with hA | hA
  · obtain rfl : j = i := by omega
    rw [idAt_append_left hA] at hid hid'
    simp_all
  · rw [idAt_append_right hA, List.cons_append, List.nil_append] at hid'
    unfold idAt at hid'
    split_ifs at hid' with hlast
    · simp only [Option.some.injEq] at hid'
      rcases hgrow with heq | hnew
      · obtain rfl : j = i := by omega
        rw [idAt_append_right hA] at hid
        unfold idAt at hid
        rw [if_pos (by simp only; omega)] at hid
        simp_all
      · simp only at hlast
        exact .inr (.inl (by omega))
    · exact .inr (.inr (Pool.has_of_idAt hid'))

/-- An empty pool and two that overlap, before one that grows from 2 people to 6. -/
theorem personId_stable_overlapping :
    (2 : UInt64) ≤ 6 ∧
      ofPools ([⟨100, 3⟩, ⟨7, 0⟩, ⟨101, 2⟩] ++ [⟨200, 2⟩])
        = .ok ⟨7, ⟨0, 100⟩, [⟨3, 101⟩, ⟨5, 200⟩]⟩ ∧
      ofPools ([⟨100, 3⟩, ⟨7, 0⟩, ⟨101, 2⟩] ++ [⟨200, 6⟩] ++ [⟨50, 4⟩])
        = .ok ⟨15, ⟨0, 100⟩, [⟨3, 101⟩, ⟨5, 200⟩, ⟨11, 50⟩]⟩ ∧
      ∀ seed : UInt64, ∃ id : Int,
        personId ⟨15, ⟨0, 100⟩, [⟨3, 101⟩, ⟨5, 200⟩, ⟨11, 50⟩]⟩ seed = id ∧
          (id = personId ⟨7, ⟨0, 100⟩, [⟨3, 101⟩, ⟨5, 200⟩]⟩ seed ∨
            (202 ≤ id ∧ id < 206) ∨ (50 ≤ id ∧ id < 54)) := by
  have hs : ofPools ([⟨100, 3⟩, ⟨7, 0⟩, ⟨101, 2⟩] ++ [⟨200, 2⟩])
      = .ok ⟨7, ⟨0, 100⟩, [⟨3, 101⟩, ⟨5, 200⟩]⟩ := rfl
  have ht : ofPools ([⟨100, 3⟩, ⟨7, 0⟩, ⟨101, 2⟩] ++ [⟨200, 6⟩] ++ [⟨50, 4⟩])
      = .ok ⟨15, ⟨0, 100⟩, [⟨3, 101⟩, ⟨5, 200⟩, ⟨11, 50⟩]⟩ := rfl
  refine ⟨by decide, hs, ht, fun seed => ⟨_, rfl, ?_⟩⟩
  simpa [Pool.Has] using personId_stable (by decide : (2 : UInt64) ≤ 6) hs ht seed

end IdSpace

end VirtualPeople
