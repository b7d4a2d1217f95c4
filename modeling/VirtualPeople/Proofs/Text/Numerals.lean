import VirtualPeople.Proofs.Json.Canonical
import VirtualPeople.Text.Literal
import Mathlib.Data.List.DropRight
import Mathlib.Data.Nat.Digits.Defs

/-!
# Numerals between blanks

Trimming leaves a text that neither starts nor ends with a blank, and leaves such a text alone
(`trim_eq_self_iff`). A text is read as an integer if it is a sign and digits, and then as what the
digits stand for in base ten (`integer_eq_some_iff`); an integer in its own digits has no blanks
around it and is read as itself (`integerIn_integerText`).
-/

namespace VirtualPeople.Text

/-- Neither the first nor the last character is a blank. -/
structure Bare (cs : List Char) : Prop where
  head : ∀ h : cs ≠ [], isBlank (cs.head h) = false
  last : ∀ h : cs ≠ [], isBlank (cs.getLast h) = false

theorem bare_of_forall {cs : List Char} (h : ∀ c ∈ cs, isBlank c = false) : Bare cs :=
  ⟨fun hne => h _ (List.head_mem hne), fun hne => h _ (List.getLast_mem hne)⟩

theorem trim_eq_rdropWhile (cs : List Char) :
    trim cs = (cs.dropWhile isBlank).rdropWhile isBlank := rfl

theorem bare_trim (cs : List Char) : Bare (trim cs) := by
  rw [trim_eq_rdropWhile]
  constructor
  · intro hne
    have hstart := List.rdropWhile_prefix isBlank (cs.dropWhile isBlank)
    have hne' : cs.dropWhile isBlank ≠ [] := fun hnil => hne (by rw [hnil, List.rdropWhile_nil])
    rw [hstart.head hne]
    exact List.head_dropWhile_not isBlank hne'
  · intro hne
    exact Bool.eq_false_iff.2 (List.rdropWhile_last_not isBlank _ hne)

theorem trim_eq_self_iff {cs : List Char} : trim cs = cs ↔ Bare cs := by
  refine ⟨fun h => h ▸ bare_trim cs, fun h => ?_⟩
  have hdrop : cs.dropWhile isBlank = cs := by
    rcases cs with _ | ⟨c, cs⟩
    · rfl
    · exact List.dropWhile_cons_of_neg (Bool.eq_false_iff.1 (h.head (List.cons_ne_nil c cs)))
  rw [trim_eq_rdropWhile, hdrop, List.rdropWhile_eq_self_iff]
  exact fun hne => Bool.eq_false_iff.1 (h.last hne)

theorem bare_integerText (i : Int) : Bare (integerText i) := by
  refine bare_of_forall fun c hc => Json.isBlank_of_isNumberChar ?_
  rcases Json.mem_integerText hc with hdigit | rfl
  · exact Json.isNumberChar_of_isDigit hdigit
  · rfl

/-- What digits stand for in base ten. -/
def decimalValue (cs : List Char) : Nat :=
  Nat.ofDigits 10 (cs.reverse.map fun c => c.toNat - '0'.toNat)

theorem digitsValue_eq_decimalValue (cs : List Char) : digitsValue cs = decimalValue cs := by
  rw [digitsValue, decimalValue, Nat.ofDigits_eq_foldr, List.foldr_map, List.foldr_reverse]
  congr 1
  funext n c
  exact Nat.add_comm _ _

/-- A text that is a sign, which is a minus only where there are negative numbers, and at least one
digit, and the integer that it stands for. -/
inductive Denotes (signed : Bool) : List Char → Int → Prop
  | bare {ds : List Char} (hne : ds ≠ []) (h : IsDigits ds) : Denotes signed ds (decimalValue ds)
  | plus {ds : List Char} (hne : ds ≠ []) (h : IsDigits ds) :
      Denotes signed ('+' :: ds) (decimalValue ds)
  | minus {ds : List Char} (hsigned : signed) (hne : ds ≠ []) (h : IsDigits ds) :
      Denotes signed ('-' :: ds) (-decimalValue ds)

theorem natural_eq_some_iff {cs : List Char} {n : Nat} :
    natural? cs = some n ↔ cs ≠ [] ∧ IsDigits cs ∧ decimalValue cs = n := by
  unfold natural?
  rw [Option.ite_none_right_eq_some, List.all_eq_true, digitsValue_eq_decimalValue,
    Option.some_inj, and_assoc]
  rfl

section

variable {signed : Bool} {cs : List Char} {i : Int}

/-- A text is read as an integer exactly if it stands for one. -/
theorem integer_eq_some_iff : integer? signed cs = some i ↔ Denotes signed cs i := by
  constructor
  · intro h
    unfold integer? at h
    split at h
    · obtain ⟨n, hn, rfl⟩ := Option.map_eq_some_iff.1 h
      obtain ⟨hne, hdigits, rfl⟩ := natural_eq_some_iff.1 hn
      exact .plus hne hdigits
    · split_ifs at h with hsigned
      obtain ⟨_, hnat, rfl⟩ := Option.map_eq_some_iff.1 h
      obtain ⟨n, hn, ⟨⟩⟩ := Option.bind_eq_some_iff.1 hnat
      obtain ⟨hne, hdigits, rfl⟩ := natural_eq_some_iff.1 hn
      exact .minus hsigned hne hdigits
    · obtain ⟨n, hn, rfl⟩ := Option.map_eq_some_iff.1 h
      obtain ⟨hne, hdigits, rfl⟩ := natural_eq_some_iff.1 hn
      exact .bare hne hdigits
  · rintro (@⟨ds, hne, hdigits⟩ | @⟨ds, hne, hdigits⟩ | @⟨ds, hsigned, hne, hdigits⟩)
    · have hread := natural_eq_some_iff.2 ⟨hne, hdigits, rfl⟩
      unfold integer?
      split
      · exact absurd (hdigits _ List.mem_cons_self) (by decide)
      · exact absurd (hdigits _ List.mem_cons_self) (by decide)
      · rw [hread]
        rfl
    · rw [integer?, natural_eq_some_iff.2 ⟨hne, hdigits, rfl⟩]
      rfl
    · rw [integer?, if_pos hsigned, natural_eq_some_iff.2 ⟨hne, hdigits, rfl⟩]
      rfl

theorem denotes_integerText (h : signed ∨ 0 ≤ i) : Denotes signed (integerText i) i := by
  rcases i with n | n
  · have hbare : Denotes signed _ _ := .bare (digitChars_ne_nil n) (isDigits_digitChars n)
    rwa [← digitsValue_eq_decimalValue, digitsValue_digitChars] at hbare
  · have hminus := Denotes.minus (h.resolve_right (Int.not_le.2 (Int.negSucc_lt_zero n)))
      (digitChars_ne_nil (n + 1)) (isDigits_digitChars (n + 1))
    rwa [← digitsValue_eq_decimalValue, digitsValue_digitChars] at hminus

variable {lo hi : Int}

theorem integerIn_eq_some_iff :
    integerIn? lo hi cs = some i ↔ Denotes (lo < 0) cs i ∧ lo ≤ i ∧ i ≤ hi := by
  rw [integerIn?, Option.filter_eq_some_iff, integer_eq_some_iff, Bool.and_eq_true,
    decide_eq_true_iff, decide_eq_true_iff]

/-- An integer between the bounds is read from its own digits, blanks around them or not. -/
theorem integerIn_integerText (hlo : lo ≤ i) (hhi : i ≤ hi) :
    integerIn? lo hi (trim (integerText i)) = some i := by
  rw [trim_eq_self_iff.2 (bare_integerText i), integerIn_eq_some_iff]
  refine ⟨denotes_integerText ?_, hlo, hhi⟩
  rcases lt_or_ge lo 0 with hneg | hpos
  · exact .inl (decide_eq_true hneg)
  · exact .inr (hpos.trans hlo)

end

end VirtualPeople.Text
