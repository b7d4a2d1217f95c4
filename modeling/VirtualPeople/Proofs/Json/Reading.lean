import VirtualPeople.Proofs.Json.Writing

/-!
# Text is read as it was written

A value is read from its compact text (`read_text`), if each double in it is: the reader reaches a
double in steps and may come out at one close by, so what it makes of a double alone is asked for.
Integers and strings are always read as they were written. A value ends where a comma or a bracket
follows it, or nothing, so the reader leaves just what stands behind it (`value_write`); it never
runs out of steps, as a value takes fewer of them than it has characters.
-/

namespace VirtualPeople

namespace Json

mutual

/-- A value and all the values in it. -/
def parts : Json → List Json
  | .array items => .array items :: itemsParts items
  | .object members => .object members :: membersParts members
  | v => [v]

def itemsParts : List Json → List Json
  | [] => []
  | item :: rest => item.parts ++ itemsParts rest

def membersParts : List (String × Json) → List Json
  | [] => []
  | (_, value) :: rest => value.parts ++ membersParts rest

end

/-- Whether a value is read from its own text. -/
def ReadsBack (v : Json) : Prop := read? v.text = some v

/-- A value that is no text without a value and, if it is a double, is read back. -/
def Legible : Json → Prop
  | .unreadable => False
  | .float x finite => ReadsBack (.float x finite)
  | _ => True

theorem mem_parts_self : ∀ v : Json, v ∈ v.parts
  | .array _ => List.mem_cons_self
  | .object _ => List.mem_cons_self
  | .null => List.mem_cons_self
  | .bool _ => List.mem_cons_self
  | .int _ _ => List.mem_cons_self
  | .float _ _ => List.mem_cons_self
  | .string _ => List.mem_cons_self
  | .unreadable => List.mem_cons_self

/-- What may follow a value in compact text. -/
def EndsValue (rest : List Char) : Prop := ∀ c ∈ rest.head?, c = ',' ∨ c = ']' ∨ c = '\x7d'

theorem EndsValue.head {rest : List Char} (h : EndsValue rest) {c : Char} {cs : List Char}
    (hrest : rest = c :: cs) : c = ',' ∨ c = ']' ∨ c = '\x7d' :=
  h c (by rw [hrest]; rfl)

theorem EndsValue.takeWhile_isDigit {rest : List Char} (h : EndsValue rest) :
    rest.takeWhile Char.isDigit = [] := by
  rcases rest with _ | ⟨c, cs⟩
  · rfl
  · rcases h.head rfl with rfl | rfl | rfl <;> rfl

theorem skipSpace_of_lead {c : Char} (h : isSpace c = false) (cs : List Char) :
    skipSpace (c :: cs) = c :: cs :=
  List.dropWhile_cons_of_neg (by simp [h])

/-- No value starts with a blank. -/
theorem skipSpace_write (v : Json) (rest : List Char) :
    skipSpace (v.write ++ rest) = v.write ++ rest := by
  obtain ⟨c, cs, hv, -⟩ := exists_lead v
  rw [hv, List.cons_append]
  refine skipSpace_of_lead ?_ _
  by_contra hspace
  have hlead : lead c = 7 := by
    simp only [isSpace, Bool.not_eq_false, Bool.or_eq_true, decide_eq_true_eq] at hspace
    rcases hspace with ((rfl | rfl) | rfl) | rfl <;> rfl
  exact write_ne_cons hlead (s := rest) (t := cs ++ rest) (by rw [hv, List.cons_append])

theorem exponentPart_exponentChars (e : Int) {rest : List Char} (hrest : EndsValue rest) :
    exponentPart ((if e < 0 then '-' else '+') :: (Decimal.digitChars e.natAbs ++ rest)) =
      some (e, rest) := by
  obtain ⟨htake, hdrop⟩ :=
    takeWhile_digits rest (isDigits_digitChars e.natAbs) hrest.takeWhile_isDigit
  have hread := natural_digits (digitChars_ne_nil e.natAbs) (isDigits_digitChars e.natAbs)
  rw [digitsValue_digitChars] at hread
  split_ifs with hneg
  · have hvalue : -(e.natAbs : Int) = e := by omega
    simp only [exponentPart, htake, hdrop, hread, Option.bind_eq_bind, Option.bind_some,
      Option.pure_def, Option.map_some, if_true, hvalue]
  · have hvalue : (e.natAbs : Int) = e := by omega
    simp only [exponentPart, htake, hdrop, hread, Option.bind_eq_bind, Option.bind_some,
      Option.pure_def, Option.map_some, Bool.false_eq_true, if_false, hvalue]

/-- What the reader makes of a number behind its whole digits. -/
def literalTail (whole : List Char) (rest : List Char) : Option Literal := do
  let (places, rest) ←
    match rest with
    | '.' :: more =>
      let places := more.takeWhile Char.isDigit
      if places = [] then none else some (some places, more.dropWhile Char.isDigit)
    | rest => some (none, rest)
  match rest with
  | 'e' :: more | 'E' :: more =>
    let (exponent, rest) ← exponentPart more
    return ⟨whole, places, some exponent, rest⟩
  | rest => return ⟨whole, places, none, rest⟩

/-- Whole digits that no zero leads, unless it is the only one. -/
def NoLeadingZero (whole : List Char) : Prop := whole.head? ≠ some '0' ∨ whole.length = 1

instance (whole : List Char) : Decidable (NoLeadingZero whole) :=
  inferInstanceAs (Decidable (_ ∨ _))

theorem literal_append {whole rest : List Char} (hne : whole ≠ []) (hwhole : IsDigits whole)
    (hrest : rest.takeWhile Char.isDigit = []) :
    literal? (whole ++ rest) =
      if NoLeadingZero whole then literalTail whole rest else none := by
  obtain ⟨htake, hdrop⟩ := takeWhile_digits rest hwhole hrest
  unfold literal?
  rw [htake, hdrop]
  split_ifs with hzero
  · have hguard : guard (whole ≠ [] ∧ (whole.head? ≠ some '0' ∨ whole.length = 1)) = some () :=
      if_pos ⟨hne, hzero⟩
    simp only [hguard]
    rfl
  · have hguard : guard (whole ≠ [] ∧ (whole.head? ≠ some '0' ∨ whole.length = 1)) = none :=
      if_neg fun h => hzero h.2
    simp only [hguard]
    rfl

/-- The exponent, or that there is none, is read as it was written. -/
theorem literalTail_chars {whole places : List Char} (hplaces : IsDigits places)
    (exponent : Option Int) {rest : List Char} (hrest : EndsValue rest)
    (hmarked : places ≠ [] ∨ exponent.isSome) :
    literalTail whole ((if places = [] then [] else '.' :: places) ++
        ((exponent.map exponentChars).getD [] ++ rest)) =
      some ⟨whole, if places = [] then none else some places, exponent, rest⟩ := by
  rcases places with _ | ⟨p, ps⟩
  · obtain ⟨e, rfl⟩ := Option.isSome_iff_exists.1 (hmarked.resolve_left (· rfl))
    have := exponentPart_exponentChars e hrest
    simp [literalTail, exponentChars, this]
  · have htail : ((exponent.map exponentChars).getD [] ++ rest).takeWhile Char.isDigit = [] := by
      rcases exponent with _ | e
      · exact hrest.takeWhile_isDigit
      · rfl
    obtain ⟨htake, hdrop⟩ := takeWhile_digits _ hplaces htail
    rw [if_neg (List.cons_ne_nil p ps), if_neg (List.cons_ne_nil p ps), List.cons_append]
    simp only [literalTail, htake, hdrop, reduceCtorEq, if_false]
    rcases exponent with _ | e
    · rcases rest with _ | ⟨c, cs⟩
      · rfl
      · rcases hrest.head rfl with rfl | rfl | rfl <;> rfl
    · have := exponentPart_exponentChars e hrest
      simp [exponentChars, this]

theorem literal_chars {n : Numeral} (h : n.Proper) {rest : List Char} (hrest : EndsValue rest) :
    literal? (n.chars ++ rest) =
      if NoLeadingZero n.whole then
        some ⟨n.whole, if n.places = [] then none else some n.places, n.exponent, rest⟩
      else none := by
  have htail : ((if n.places = [] then [] else '.' :: n.places) ++
      ((n.exponent.map exponentChars).getD [] ++ rest)).takeWhile Char.isDigit = [] := by
    split_ifs
    · rcases n.exponent with _ | e
      · exact hrest.takeWhile_isDigit
      · rfl
    · rfl
  rw [Numeral.chars, List.append_assoc, List.append_assoc, literal_append h.ne_nil h.whole htail,
    literalTail_chars h.places n.exponent hrest h.marked]

theorem number_of_digit {cs : List Char} {c : Char} (hhead : cs.head? = some c) (h : c.isDigit) :
    number? cs = (literal? cs).map fun l => (l.value false, l.rest) := by
  unfold number?
  split
  · rw [List.head?_cons, Option.some.injEq] at hhead
    rw [← hhead] at h
    exact absurd h (by decide)
  · rfl

/-- The value of a double's text is the same wherever the text stands. -/
theorem number_jsonNumberText {x : Float} {v : Json} {r : List Char}
    (h : number? (jsonNumberText x) = some (v, r)) {rest : List Char} (hrest : EndsValue rest) :
    number? (jsonNumberText x ++ rest) = some (v, rest) := by
  obtain ⟨n, hproper, htext⟩ := exists_signedText x
  have hend : EndsValue [] := by
    intro c hc
    cases hc
  have halone := literal_chars hproper hend
  have hbefore := literal_chars hproper hrest
  rw [List.append_nil] at halone
  rw [htext, signedText] at h ⊢
  split_ifs at h ⊢ with hnegative
  · rw [number?, halone] at h
    rw [List.cons_append, number?, hbefore]
    by_cases hzero : NoLeadingZero n.whole
    · rw [if_pos hzero] at h ⊢
      cases h
      rfl
    · rw [if_neg hzero] at h
      cases h
  · obtain ⟨c, cs, hcons⟩ := List.exists_cons_of_ne_nil hproper.ne_nil
    have hdigit : c.isDigit := hproper.whole c (by rw [hcons]; exact List.mem_cons_self)
    have hhead : ∀ s, (n.chars ++ s).head? = some c := by
      intro s
      rw [Numeral.chars, hcons]
      rfl
    have hhead' := hhead []
    rw [List.append_nil] at hhead'
    rw [number_of_digit hhead' hdigit, halone] at h
    rw [number_of_digit (hhead rest) hdigit, hbefore]
    by_cases hzero : NoLeadingZero n.whole
    · rw [if_pos hzero] at h ⊢
      cases h
      rfl
    · rw [if_neg hzero] at h
      cases h

theorem head_digitChars {n : Nat} (h : 0 < n) : (Decimal.digitChars n).head? ≠ some '0' := by
  induction n using Nat.strongRecOn with
  | ind n ih =>
    unfold Decimal.digitChars
    rcases Nat.lt_or_ge n 10 with hlt | hge
    · rw [Nat.toDigits_of_lt_base hlt, List.head?_cons]
      intro hzero
      exact h.ne' (Nat.digitChar_eq_zero.1 (Option.some.inj hzero))
    · rw [Nat.toDigits_of_base_le (by decide) hge,
        List.head?_append_of_ne_nil _ Nat.toDigits_ne_nil]
      exact ih (n / 10) (Nat.div_lt_self h (by decide)) (Nat.div_pos hge (by decide))

theorem noLeadingZero_digitChars (n : Nat) : NoLeadingZero (Decimal.digitChars n) := by
  rcases Nat.eq_zero_or_pos n with rfl | hpos
  · exact .inr rfl
  · exact .inl (head_digitChars hpos)

theorem le_foldl_digits : ∀ (cs : List Char) (n : Nat),
    n ≤ cs.foldl (fun n c => 10 * n + (c.toNat - '0'.toNat)) n
  | [], n => le_rfl
  | c :: cs, n => by
    have hstep : n ≤ 10 * n + (c.toNat - '0'.toNat) := by omega
    exact hstep.trans (le_foldl_digits cs _)

theorem wholeDecimal_eq : ∀ (cs : List Char) (n : Nat),
    cs.foldl (fun n c => 10 * n + (c.toNat - '0'.toNat)) n < 18446744073709551616 →
      wholeDecimal n cs = ⟨cs.foldl (fun n c => 10 * n + (c.toNat - '0'.toNat)) n, 0⟩
  | [], n, _ => rfl
  | c :: cs, n, h => by
    have hdigit : Text.digitsValue [c] + 10 * n = 10 * n + (c.toNat - '0'.toNat) := by
      simp only [Text.digitsValue, List.foldl_cons, List.foldl_nil]
      omega
    have hword : 10 * n + (c.toNat - '0'.toNat) < 18446744073709551616 :=
      (le_foldl_digits cs _).trans_lt h
    rw [wholeDecimal, withDigit?, hdigit, if_pos hword]
    exact wholeDecimal_eq cs _ h

/-- Digits whose number a 64-bit word holds are read as the number. -/
theorem wholeDecimal_digitChars {n : Nat} (h : n < 18446744073709551616) :
    wholeDecimal 0 (Decimal.digitChars n) = ⟨n, 0⟩ := by
  have hvalue : (Decimal.digitChars n).foldl (fun n c => 10 * n + (c.toNat - '0'.toNat)) 0 = n :=
    digitsValue_digitChars n
  rw [wholeDecimal_eq _ 0 (by rw [hvalue]; exact h), hvalue]

theorem literal_digitChars (n : Nat) {rest : List Char} (hrest : EndsValue rest) :
    literal? (Decimal.digitChars n ++ rest) = some ⟨Decimal.digitChars n, none, none, rest⟩ := by
  rw [literal_append (digitChars_ne_nil n) (isDigits_digitChars n) hrest.takeWhile_isDigit,
    if_pos (noLeadingZero_digitChars n)]
  rcases rest with _ | ⟨c, cs⟩
  · rfl
  · rcases hrest.head rfl with rfl | rfl | rfl <;> rfl

theorem value_of_whole {negative : Bool} {whole rest : List Char} {n : Nat} {i : Int}
    (hwhole : wholeDecimal 0 whole = ⟨n, 0⟩) (hzero : ¬ (negative = true ∧ n = 0))
    (hi : (if negative then -(n : Int) else n) = i)
    (fits : -9223372036854775808 ≤ i ∧ i < 18446744073709551616) :
    Literal.value negative ⟨whole, none, none, rest⟩ = .int i fits := by
  subst hi
  have hinteger : ¬ ((none : Option (List Char)).isSome = true ∨
      (none : Option Int).isSome = true ∨ (0 : Int) < 0 ∨ negative = true ∧ n = 0) := by
    simpa using hzero
  simp only [Literal.value, hwhole]
  rw [if_neg hinteger, dif_pos fits]

/-- An integer is read as it was written. -/
theorem number_integerText (i : Int)
    (fits : -9223372036854775808 ≤ i ∧ i < 18446744073709551616) {rest : List Char}
    (hrest : EndsValue rest) :
    number? (Text.integerText i ++ rest) = some (.int i fits, rest) := by
  rcases i with n | n
  · obtain ⟨c, cs, hcons⟩ := List.exists_cons_of_ne_nil (digitChars_ne_nil n)
    have hdigit : c.isDigit := isDigits_digitChars n c (by rw [hcons]; exact List.mem_cons_self)
    have hhead : (Decimal.digitChars n ++ rest).head? = some c := by
      rw [hcons]
      rfl
    have hword : n < 18446744073709551616 := Int.ofNat_lt.1 fits.2
    rw [Text.integerText, number_of_digit hhead hdigit, literal_digitChars n hrest, Option.map_some,
      value_of_whole (i := .ofNat n) (wholeDecimal_digitChars hword)
        (fun h => Bool.false_ne_true h.1) rfl fits]
  · have hword : n + 1 < 18446744073709551616 := by
      have := fits.1
      omega
    rw [Text.integerText, List.cons_append, number?, literal_digitChars _ hrest, Option.map_some,
      value_of_whole (i := .negSucc n) (wholeDecimal_digitChars hword)
        (fun h => Nat.succ_ne_zero n h.2) rfl fits]

/-! ## Values -/

theorem value_of_lead {c : Char} (h : lead c = 6) (fuel : Nat) (cs : List Char) :
    value? (fuel + 1) (c :: cs) = number? (c :: cs) := by
  rw [value?.eq_def]
  simp only
  split
  all_goals first | rfl | (rename_i heq; cases heq; cases h)

theorem number_of_readsBack {x : Float} {finite : isFinite x = true}
    (h : ReadsBack (.float x finite)) :
    ∃ r, number? (jsonNumberText x) = some (.float x finite, r) := by
  obtain ⟨c, cs, hcons, hlead⟩ := exists_lead (.float x finite)
  have hspace := skipSpace_write (.float x finite) []
  rw [List.append_nil] at hspace
  have hnumber : ∀ fuel, value? (fuel + 1) (write (.float x finite)) =
      number? (jsonNumberText x) := by
    intro fuel
    rw [hcons, value_of_lead hlead, ← hcons]
    rfl
  simp only [ReadsBack, read?, text, String.toList_ofList, hspace, hnumber] at h
  rcases hread : number? (jsonNumberText x) with _ | ⟨v, r⟩
  · rw [hread] at h
    cases h
  · rw [hread] at h
    simp only at h
    split_ifs at h
    cases h
    exact ⟨r, rfl⟩

theorem value_string (fuel : Nat) (a : String) (rest : List Char) :
    value? (fuel + 1) (quoted a ++ rest) = some (.string a, rest) := by
  rw [quoted_append, value?]
  simp only [stringBody_flatMap_escape, Option.map_some, if_true, List.reverse_nil,
    List.nil_append, String.ofList_toList]

theorem endsValue_cons {c : Char} (h : c = ',' ∨ c = ']' ∨ c = '\x7d') (cs : List Char) :
    EndsValue (c :: cs) := by
  intro d hd
  rw [List.head?_cons, Option.mem_some_iff] at hd
  exact hd ▸ h

theorem joined_cons_cons (a b : List Char) (rest : List (List Char)) :
    joined [','] (a :: b :: rest) = a ++ ',' :: joined [','] (b :: rest) := rfl

/-- An array whose first item does not start with the closing bracket. -/
theorem value_bracket {fuel : Nat} {cs : List Char} (hspace : skipSpace cs = cs)
    (hclosing : ∀ rest, cs ≠ ']' :: rest) :
    value? (fuel + 1) ('[' :: cs) = items? fuel [] cs := by
  rw [value?, hspace]
  split
  · exact absurd rfl (hclosing _)
  · rfl

theorem value_brace {fuel : Nat} {cs : List Char} (hspace : skipSpace cs = cs)
    (hclosing : ∀ rest, cs ≠ '\x7d' :: rest) :
    value? (fuel + 1) ('\x7b' :: cs) = members? fuel true [] cs := by
  rw [value?, hspace]
  split
  · exact absurd rfl (hclosing _)
  · rfl

section

variable {fuel : Nat} {cs rest : List Char}

theorem items_last {seen : List Json} {item : Json} (hspace : skipSpace cs = cs)
    (h : value? fuel cs = some (item, ']' :: rest)) :
    items? (fuel + 1) seen cs = some (.array (seen.reverse ++ [item]), rest) := by
  have hend : skipSpace (']' :: rest) = ']' :: rest := rfl
  rw [items?, hspace, h]
  simp only [hend, List.reverse_cons]

theorem items_more {seen : List Json} {item : Json} (hspace : skipSpace cs = cs)
    (h : value? fuel cs = some (item, ',' :: rest)) (hrest : skipSpace rest = rest) :
    items? (fuel + 1) seen cs = items? fuel (item :: seen) rest := by
  have hend : skipSpace (',' :: rest) = ',' :: rest := rfl
  rw [items?, hspace, h]
  simp only [hend, hrest]

variable {seen : List (String × Json)} {name : String} {value : Json}

theorem members_last (hspace : skipSpace cs = cs)
    (h : value? fuel cs = some (value, '\x7d' :: rest)) :
    members? (fuel + 1) true seen (quoted name ++ ':' :: cs) =
      some (.object (seen.reverse ++ [(name, value)]), rest) := by
  have hcolon : skipSpace (':' :: cs) = ':' :: cs := rfl
  have hend : skipSpace ('\x7d' :: rest) = '\x7d' :: rest := rfl
  rw [members?, quoted_append, skipSpace_of_lead rfl]
  simp only [stringBody_flatMap_escape, hcolon, hspace, h, hend, Bool.and_self, if_true,
    List.reverse_nil, List.nil_append, String.ofList_toList, List.reverse_cons]

theorem members_more (hspace : skipSpace cs = cs)
    (h : value? fuel cs = some (value, ',' :: rest)) :
    members? (fuel + 1) true seen (quoted name ++ ':' :: cs) =
      members? fuel true ((name, value) :: seen) rest := by
  have hcolon : skipSpace (':' :: cs) = ':' :: cs := rfl
  have hend : skipSpace (',' :: rest) = ',' :: rest := rfl
  rw [members?, quoted_append, skipSpace_of_lead rfl]
  simp only [stringBody_flatMap_escape, hcolon, hspace, h, hend, Bool.and_self, List.reverse_nil,
    List.nil_append, String.ofList_toList]

end

theorem skipSpace_items (item : Json) (items : List Json) (rest : List Char) :
    skipSpace (joined [','] (writeItems (item :: items)) ++ rest) =
      joined [','] (writeItems (item :: items)) ++ rest := by
  rw [writeItems, joined_cons, List.append_assoc]
  exact skipSpace_write item _

theorem skipSpace_members (m : String × Json) (members : List (String × Json))
    (rest : List Char) :
    skipSpace (joined [','] (writeMembers (m :: members)) ++ rest) =
      joined [','] (writeMembers (m :: members)) ++ rest := by
  rw [writeMembers, joined_cons, List.append_assoc, List.append_assoc, quoted_append]
  exact skipSpace_of_lead rfl _

mutual

/-- A value is read as it was written, and what follows it is left. -/
theorem value_write : ∀ (v : Json) (fuel : Nat) (rest : List Char), (∀ u ∈ v.parts, u.Legible) →
    v.write.length < fuel → EndsValue rest → value? fuel (v.write ++ rest) = some (v, rest)
  | v, 0, _, _, hfuel, _ => absurd hfuel (Nat.not_lt_zero _)
  | .null, fuel + 1, rest, _, _, _ => by
    change value? (fuel + 1) ('n' :: 'u' :: 'l' :: 'l' :: rest) = _
    rw [value?]
  | .bool true, fuel + 1, rest, _, _, _ => by
    change value? (fuel + 1) ('t' :: 'r' :: 'u' :: 'e' :: rest) = _
    rw [value?]
  | .bool false, fuel + 1, rest, _, _, _ => by
    change value? (fuel + 1) ('f' :: 'a' :: 'l' :: 's' :: 'e' :: rest) = _
    rw [value?]
  | .int i fits, fuel + 1, rest, _, _, hrest => by
    obtain ⟨c, cs, hcons, hlead⟩ := exists_lead (.int i fits)
    rw [hcons, List.cons_append, value_of_lead hlead, ← List.cons_append, ← hcons]
    exact number_integerText i fits hrest
  | .float x finite, fuel + 1, rest, h, _, hrest => by
    obtain ⟨c, cs, hcons, hlead⟩ := exists_lead (.float x finite)
    obtain ⟨r, hread⟩ := number_of_readsBack (h _ List.mem_cons_self)
    rw [hcons, List.cons_append, value_of_lead hlead, ← List.cons_append, ← hcons]
    exact number_jsonNumberText hread hrest
  | .string a, fuel + 1, rest, _, _, _ => value_string fuel a rest
  | .unreadable, fuel + 1, rest, h, _, _ => absurd (h _ List.mem_cons_self) id
  | .array [], fuel + 1, rest, _, _, _ => by
    change value? (fuel + 1) ('[' :: ']' :: rest) = _
    rw [value?, skipSpace_of_lead rfl]
    rfl
  | .array (item :: items), fuel + 1, rest, h, hfuel, _ => by
    have hlength : (joined [','] (writeItems (item :: items))).length + 1 < fuel := by
      simpa [write] using hfuel
    have hitems := items_write (item :: items) fuel [] rest (List.cons_ne_nil _ _)
      (fun u hu => h u (List.mem_cons_of_mem _ hu)) hlength
    rw [write, List.cons_append, List.append_assoc, List.singleton_append,
      value_bracket (skipSpace_items item items _), hitems, List.reverse_nil, List.nil_append]
    intro s hs
    rw [writeItems, joined_cons, List.append_assoc] at hs
    exact write_ne_cons rfl hs
  | .object [], fuel + 1, rest, _, _, _ => by
    change value? (fuel + 1) ('\x7b' :: '\x7d' :: rest) = _
    rw [value?, skipSpace_of_lead rfl]
    rfl
  | .object (m :: members), fuel + 1, rest, h, hfuel, _ => by
    have hlength : (joined [','] (writeMembers (m :: members))).length + 1 < fuel := by
      simpa [write] using hfuel
    have hmembers := members_write (m :: members) fuel [] rest (List.cons_ne_nil _ _)
      (fun u hu => h u (List.mem_cons_of_mem _ hu)) hlength
    rw [write, List.cons_append, List.append_assoc, List.singleton_append,
      value_brace (skipSpace_members m members _), hmembers, List.reverse_nil, List.nil_append]
    intro s hs
    rw [writeMembers, joined_cons, List.append_assoc, List.append_assoc, quoted_append] at hs
    cases hs

theorem items_write : ∀ (items : List Json) (fuel : Nat) (seen : List Json) (rest : List Char),
    items ≠ [] → (∀ u ∈ itemsParts items, u.Legible) →
      (joined [','] (writeItems items)).length + 1 < fuel →
      items? fuel seen (joined [','] (writeItems items) ++ ']' :: rest) =
        some (.array (seen.reverse ++ items), rest)
  | [], _, _, _, hne, _, _ => absurd rfl hne
  | _ :: _, 0, _, _, _, _, hfuel => absurd hfuel (Nat.not_lt_zero _)
  | [item], fuel + 1, seen, rest, _, h, hfuel => by
    have hitem := value_write item fuel _ (fun u hu => h u (List.mem_append_left _ hu))
      (Nat.lt_of_succ_lt_succ hfuel) (endsValue_cons (.inr (.inl rfl)) rest)
    exact items_last (skipSpace_write item _) hitem
  | item :: next :: more, fuel + 1, seen, rest, _, h, hfuel => by
    rw [writeItems, writeItems, joined_cons_cons, ← writeItems, List.length_append,
      List.length_cons] at hfuel
    have hitem := value_write item fuel _ (fun u hu => h u (List.mem_append_left _ hu))
      (by omega)
      (endsValue_cons (.inl rfl) (joined [','] (writeItems (next :: more)) ++ ']' :: rest))
    have hmore := items_write (next :: more) fuel (item :: seen) rest
      (List.cons_ne_nil _ _) (fun u hu => h u (List.mem_append_right _ hu)) (by omega)
    rw [writeItems, writeItems, joined_cons_cons, ← writeItems, List.append_assoc,
      List.cons_append, items_more (skipSpace_write item _) hitem (skipSpace_items next more _),
      hmore, List.reverse_cons, List.append_assoc, List.singleton_append]

theorem members_write : ∀ (members : List (String × Json)) (fuel : Nat)
    (seen : List (String × Json)) (rest : List Char),
    members ≠ [] → (∀ u ∈ membersParts members, u.Legible) →
      (joined [','] (writeMembers members)).length + 1 < fuel →
      members? fuel true seen (joined [','] (writeMembers members) ++ '\x7d' :: rest) =
        some (.object (seen.reverse ++ members), rest)
  | [], _, _, _, hne, _, _ => absurd rfl hne
  | _ :: _, 0, _, _, _, _, hfuel => absurd hfuel (Nat.not_lt_zero _)
  | [(name, value)], fuel + 1, seen, rest, _, h, hfuel => by
    have hlength : value.write.length < fuel := by
      simp only [writeMembers, joined, List.length_append, List.length_cons] at hfuel
      omega
    have hvalue := value_write value fuel _ (fun u hu => h u (List.mem_append_left _ hu)) hlength
      (endsValue_cons (.inr (.inr rfl)) rest)
    rw [writeMembers, writeMembers, joined, List.append_assoc, List.cons_append]
    exact members_last (skipSpace_write value _) hvalue
  | (name, value) :: (next, nextValue) :: more, fuel + 1, seen, rest, _, h, hfuel => by
    rw [writeMembers, writeMembers, joined_cons_cons, ← writeMembers, List.length_append,
      List.length_append, List.length_cons, List.length_cons] at hfuel
    have hvalue := value_write value fuel _ (fun u hu => h u (List.mem_append_left _ hu))
      (by omega)
      (endsValue_cons (.inl rfl)
        (joined [','] (writeMembers ((next, nextValue) :: more)) ++ '\x7d' :: rest))
    have hmore := members_write ((next, nextValue) :: more) fuel ((name, value) :: seen) rest
      (List.cons_ne_nil _ _) (fun u hu => h u (List.mem_append_right _ hu)) (by omega)
    rw [writeMembers, writeMembers, joined_cons_cons, ← writeMembers, List.append_assoc,
      List.append_assoc, List.cons_append, List.cons_append,
      members_more (skipSpace_write value _) hvalue, hmore, List.reverse_cons, List.append_assoc,
      List.singleton_append]

end

/-- A value is read from its text, if all the doubles in it are. -/
theorem read_text {v : Json} (h : ∀ u ∈ v.parts, u.Legible) : v.ReadsBack := by
  have hspace := skipSpace_write v []
  have hread := value_write v _ [] h (Nat.lt_succ_self _) (by intro c hc; cases hc)
  rw [List.append_nil] at hspace hread
  simp only [ReadsBack, read?, text, String.toList_ofList, hspace, hread]
  rfl

end Json

end VirtualPeople
