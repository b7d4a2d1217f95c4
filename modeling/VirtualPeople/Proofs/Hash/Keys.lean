import VirtualPeople.Distribution
import VirtualPeople.Multiplicity
import VirtualPeople.Update.Shredder
import VirtualPeople.Proofs.Number.Layout

/-!
# Keys

A key joins a seed, which may be any text, with numbers in decimal digits, and still determines its
parts: digits end where a dash stands, so the numbers are told first, from the end of the key that
they stand at, and what is left is the seed (`digits_dash_inj`, `dash_digits_inj`). Copies of events
that differ in seed, number or fingerprint thus get different fingerprints, unless two keys collide
(`keys_determine_parts`).
-/

namespace VirtualPeople

theorem digitChars_inj {m n : Nat} : Decimal.digitChars m = Decimal.digitChars n ↔ m = n := by
  refine ⟨fun h => ?_, congrArg _⟩
  have hvalue := congrArg Text.digitsValue h
  rwa [digitsValue_digitChars, digitsValue_digitChars] at hvalue

theorem digits_dash_inj {cs ds s t : List Char} (hc : IsDigits cs) (hd : IsDigits ds) :
    cs ++ '-' :: s = ds ++ '-' :: t ↔ cs = ds ∧ s = t := by
  refine ⟨fun h => ?_, fun ⟨hdigits, hrest⟩ => by rw [hdigits, hrest]⟩
  obtain ⟨htake, hdrop⟩ := takeWhile_digits ('-' :: s) hc rfl
  obtain ⟨htake', hdrop'⟩ := takeWhile_digits ('-' :: t) hd rfl
  rw [h] at htake hdrop
  exact ⟨htake.symm.trans htake', List.tail_eq_of_cons_eq (hdrop.symm.trans hdrop')⟩

theorem dash_digits_inj {cs ds s t : List Char} (hc : IsDigits cs) (hd : IsDigits ds) :
    s ++ '-' :: cs = t ++ '-' :: ds ↔ s = t ∧ cs = ds := by
  have hc' : IsDigits cs.reverse := fun c h => hc c (List.mem_reverse.1 h)
  have hd' : IsDigits ds.reverse := fun c h => hd c (List.mem_reverse.1 h)
  have hreverse (cs s : List Char) : (s ++ '-' :: cs).reverse = cs.reverse ++ '-' :: s.reverse := by
    rw [List.reverse_append, List.reverse_cons, List.append_assoc]
    rfl
  rw [← List.reverse_inj, hreverse, hreverse, digits_dash_inj hc' hd', List.reverse_inj,
    List.reverse_inj, and_comm]

theorem toList_uint64_text (n : UInt64) :
    (Value.uint64 n).text.toList = Decimal.digitChars n.toNat := String.toList_ofList

theorem toList_dash_digits (s : String) (n : Nat) :
    (s ++ "-" ++ String.ofList (Decimal.digitChars n)).toList =
      s.toList ++ '-' :: Decimal.digitChars n := by
  have hdash : "-".toList = ['-'] := rfl
  simp only [String.toList_append, String.toList_ofList, hdash, List.append_assoc,
    List.singleton_append]

theorem Multiplicity.toList_cloneKey (seed : String) (index : Nat) (print : UInt64) :
    (cloneKey seed index print).toList =
      ((seed ++ "-clone").toList ++ '-' :: Decimal.digitChars index) ++
        '-' :: Decimal.digitChars print.toNat := by
  have hmark : "-clone-" = "-clone" ++ "-" := rfl
  rw [← toList_dash_digits, @String.append_assoc seed, ← hmark]
  exact toList_dash_digits _ print.toNat

theorem Distribution.toList_key (seed : String) (id : Nat) :
    (key seed id).toList =
      ("consistent-hashing-" ++ seed).toList ++ '-' :: Decimal.digitChars id :=
  toList_dash_digits _ id

theorem Shredder.toList_key (target steps : UInt64) (seed : String) :
    (key target steps seed).toList = Decimal.digitChars target.toNat ++
      '-' :: ("shred-".toList ++ (Decimal.digitChars steps.toNat ++ '-' :: seed.toList)) := by
  have hmark : "-shred-".toList = '-' :: "shred-".toList := rfl
  have hdash : "-".toList = ['-'] := rfl
  simp only [key, String.toList_append, toList_uint64_text, hmark, hdash, List.append_assoc,
    List.cons_append, List.nil_append]

section

variable {seed seed' : String}

theorem Multiplicity.cloneKey_inj {index index' : Nat} {print print' : UInt64} :
    cloneKey seed index print = cloneKey seed' index' print' ↔
      seed = seed' ∧ index = index' ∧ print = print' := by
  rw [← String.toList_inj, toList_cloneKey, toList_cloneKey,
    dash_digits_inj (isDigits_digitChars _) (isDigits_digitChars _),
    dash_digits_inj (isDigits_digitChars _) (isDigits_digitChars _), String.toList_inj,
    String.append_left_inj, digitChars_inj, digitChars_inj, UInt64.toNat_inj, and_assoc]

theorem Distribution.key_inj {id id' : Nat} :
    key seed id = key seed' id' ↔ seed = seed' ∧ id = id' := by
  rw [← String.toList_inj, toList_key, toList_key,
    dash_digits_inj (isDigits_digitChars _) (isDigits_digitChars _), String.toList_inj,
    String.append_right_inj, digitChars_inj]

theorem Shredder.key_inj {target target' steps steps' : UInt64} :
    key target steps seed = key target' steps' seed' ↔
      target = target' ∧ steps = steps' ∧ seed = seed' := by
  rw [← String.toList_inj, toList_key, toList_key,
    digits_dash_inj (isDigits_digitChars _) (isDigits_digitChars _), List.append_right_inj,
    digits_dash_inj (isDigits_digitChars _) (isDigits_digitChars _), digitChars_inj,
    digitChars_inj, UInt64.toNat_inj, UInt64.toNat_inj, String.toList_inj]

end

/-- Two texts that share their fingerprint. -/
def Collide (s t : String) : Prop := s ≠ t ∧ fingerprint s = fingerprint t

/-- Copies but for the first share a fingerprint if they are the same copy of one event under one
seed, and otherwise only by a collision of their keys. -/
theorem Multiplicity.cloneFingerprint_eq_iff (m m' : Multiplicity) {print print' : UInt64}
    {index index' : Nat} (h : 1 ≤ index) (h' : 1 ≤ index') :
    m.cloneFingerprint print index = m'.cloneFingerprint print' index' ↔
      (m.seed = m'.seed ∧ index = index' ∧ print = print') ∨
        Collide (cloneKey m.seed index print) (cloneKey m'.seed index' print') := by
  unfold cloneFingerprint
  rw [if_neg (by omega), if_neg (by omega), ← cloneKey_inj]
  constructor
  · intro heq
    by_cases hkey : cloneKey m.seed index print = cloneKey m'.seed index' print'
    · exact .inl hkey
    · exact .inr ⟨hkey, heq⟩
  · rintro (hkey | ⟨-, heq⟩)
    · rw [hkey]
    · exact heq

/-- The key of a copy, of a choice and of a shred determines its parts, whatever the seed. So copies
of events, the first ones apart, share a fingerprint only if they are the same copy of events with
one fingerprint under one seed, or if their keys collide. -/
theorem keys_determine_parts :
    (∀ (seed seed' : String) (index index' : Nat) (print print' : UInt64),
      Multiplicity.cloneKey seed index print = Multiplicity.cloneKey seed' index' print' ↔
        seed = seed' ∧ index = index' ∧ print = print') ∧
    (∀ (seed seed' : String) (id id' : Nat),
      Distribution.key seed id = Distribution.key seed' id' ↔ seed = seed' ∧ id = id') ∧
    (∀ (seed seed' : String) (target target' steps steps' : UInt64),
      Shredder.key target steps seed = Shredder.key target' steps' seed' ↔
        target = target' ∧ steps = steps' ∧ seed = seed') ∧
    ∀ (m m' : Multiplicity) (index index' : Nat) (print print' : UInt64),
      1 ≤ index → 1 ≤ index' →
      (m.cloneFingerprint print index = m'.cloneFingerprint print' index' ↔
        (m.seed = m'.seed ∧ index = index' ∧ print = print') ∨
          Collide (Multiplicity.cloneKey m.seed index print)
            (Multiplicity.cloneKey m'.seed index' print')) := by
  refine ⟨fun _ _ _ _ _ _ => Multiplicity.cloneKey_inj, fun _ _ _ _ => Distribution.key_inj,
    fun _ _ _ _ _ _ => Shredder.key_inj, ?_⟩
  intro m m' index index' print print' h h'
  exact Multiplicity.cloneFingerprint_eq_iff m m' h h'

/-- Two copies of each event, told apart by a seed. -/
def Multiplicity.twoOf (seed : String) : Multiplicity :=
  ⟨.constant 2.0, false, 2.0,
    ⟨"multiplicity_person_index", .int32, .field (.there (.there (.there .here)))⟩, seed⟩

/-- Seeds that look like parts of keys. -/
theorem keys_determine_parts_dashes :
    Multiplicity.cloneKey "a-clone-1" 2 3 ≠ Multiplicity.cloneKey "a" 1 3 ∧
      Distribution.key "a-1" 2 ≠ Distribution.key "a" 12 ∧
      Shredder.key 1 2 "3-a" ≠ Shredder.key 1 23 "a" ∧
      (1 ≤ 2 ∧ 1 ≤ 1) ∧
      (Multiplicity.twoOf "a-clone-1").cloneFingerprint 3 2 ≠
        (Multiplicity.twoOf "a").cloneFingerprint 3 1 := by
  obtain ⟨hclone, hchoice, hshred, hprint⟩ := keys_determine_parts
  refine ⟨fun h => ?_, fun h => ?_, fun h => ?_, ⟨by decide, by decide⟩, fun h => ?_⟩
  · exact absurd ((hclone _ _ _ _ _ _).1 h).1 (by decide)
  · exact absurd ((hchoice _ _ _ _).1 h).1 (by decide)
  · exact absurd ((hshred _ _ _ _ _ _).1 h).2.1 (by decide)
  · rcases (hprint _ _ 2 1 3 3 (by decide) (by decide)).1 h with hsame | ⟨-, hcollision⟩
    · exact absurd hsame.2.1 (by decide)
    · exact absurd hcollision (by decide +kernel)

end VirtualPeople
