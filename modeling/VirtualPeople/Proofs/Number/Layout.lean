import VirtualPeople.Proofs.Number.Decimal
import VirtualPeople.Proofs.Number.Operations
import VirtualPeople.Text.Literal

/-!
# Reading numbers as they are written

The layout of JSON writes a decimal as digits, perhaps digits behind a point, and perhaps an
exponent (`exists_numeral`), and from those its value is read again (`decimal_chars`). A finite
double is thus read as itself (`double_jsonNumberText`), and an integer as itself
(`integer_integerText`).
-/

namespace VirtualPeople

open Format (double)
open Text (digitsValue)

def IsDigits (cs : List Char) : Prop := ∀ c ∈ cs, c.isDigit

theorem IsDigits.append {cs ds : List Char} (hc : IsDigits cs) (hd : IsDigits ds) :
    IsDigits (cs ++ ds) := by
  intro c h
  rcases List.mem_append.1 h with h | h
  · exact hc c h
  · exact hd c h

theorem isDigits_digitChars (n : Nat) : IsDigits (Decimal.digitChars n) :=
  fun _ => Nat.isDigit_of_mem_toDigits (by decide) (by decide)

theorem isDigits_replicate (n : Nat) : IsDigits (List.replicate n '0') := by
  intro c h
  rw [List.eq_of_mem_replicate h]
  rfl

theorem digitChars_ne_nil (n : Nat) : Decimal.digitChars n ≠ [] := Nat.toDigits_ne_nil

theorem digitsValue_digitChars (n : Nat) : digitsValue (Decimal.digitChars n) = n :=
  Nat.ofDigitChars_ten_toDigits

theorem digitsValue_append_zeros (cs : List Char) (n : Nat) :
    digitsValue (cs ++ List.replicate n '0') = digitsValue cs * 10 ^ n := by
  rw [Nat.mul_comm]
  exact (Nat.ofDigitChars_append 0).trans Nat.ofDigitChars_replicate_zero

theorem digitsValue_zeros_append (cs : List Char) (n : Nat) :
    digitsValue (List.replicate n '0' ++ cs) = digitsValue cs := by
  refine (Nat.ofDigitChars_append 0).trans ?_
  rw [Nat.ofDigitChars_replicate_zero, Nat.mul_zero]
  rfl

theorem natural_digits {cs : List Char} (hne : cs ≠ []) (h : IsDigits cs) :
    Text.natural? cs = some (digitsValue cs) :=
  if_pos ⟨hne, List.all_eq_true.2 h⟩

/-- An integer is read as it was written. -/
theorem integer_integerText : ∀ i : Int, Text.integer? true (Text.integerText i) = some i
  | .ofNat n => by
    rcases hcs : Decimal.digitChars n with _ | ⟨c, cs⟩
    · exact absurd hcs (digitChars_ne_nil n)
    · have hdigit := isDigits_digitChars n c (by simp [hcs])
      have hread := natural_digits (digitChars_ne_nil n) (isDigits_digitChars n)
      rw [digitsValue_digitChars, hcs] at hread
      rw [Text.integerText, hcs]
      unfold Text.integer?
      split
      · rename_i h
        cases h
        exact absurd hdigit (by decide)
      · rename_i h
        cases h
        exact absurd hdigit (by decide)
      · rw [hread]
        rfl
  | .negSucc n => by
    simp only [Text.integerText, Text.integer?, natural_digits (digitChars_ne_nil _)
      (isDigits_digitChars _), digitsValue_digitChars]
    rfl

/-- The mark, the sign and the digits of an exponent. -/
def exponentChars (e : Int) : List Char :=
  'e' :: (if e < 0 then '-' else '+') :: Decimal.digitChars e.natAbs

/-- The parts of a number as JSON writes it; no point stands where no places are. -/
structure Numeral where
  whole : List Char
  places : List Char
  exponent : Option Int

namespace Numeral

def chars (n : Numeral) : List Char :=
  n.whole ++ ((if n.places = [] then [] else '.' :: n.places) ++
    (n.exponent.map exponentChars).getD [])

def decimal (n : Numeral) : Decimal :=
  ⟨digitsValue (n.whole ++ n.places), n.exponent.getD 0 - n.places.length⟩

/-- Digits where digits belong, and a point or an exponent. -/
structure Proper (n : Numeral) : Prop where
  ne_nil : n.whole ≠ []
  whole : IsDigits n.whole
  places : IsDigits n.places
  marked : n.places ≠ [] ∨ n.exponent.isSome

end Numeral

theorem exponent_exponentChars (e : Int) : Text.exponent? (exponentChars e) = some e := by
  have hread := natural_digits (digitChars_ne_nil e.natAbs) (isDigits_digitChars e.natAbs)
  rw [digitsValue_digitChars] at hread
  simp only [exponentChars, Text.exponent?, true_or, if_true]
  split_ifs with hneg
  · rw [Text.integer?, if_pos rfl, hread]
    exact congrArg some (by omega : -(e.natAbs : Int) = e)
  · simp only [Text.integer?, hread, Option.map_some, Option.some.injEq, Int.ofNat_eq_natCast]
    omega

theorem takeWhile_digits {cs : List Char} (rest : List Char) (h : IsDigits cs)
    (hrest : rest.takeWhile Char.isDigit = []) :
    (cs ++ rest).takeWhile Char.isDigit = cs ∧ (cs ++ rest).dropWhile Char.isDigit = rest := by
  have hdrop := List.takeWhile_append_dropWhile (p := Char.isDigit) (l := rest)
  rw [hrest, List.nil_append] at hdrop
  constructor
  · rw [List.takeWhile_append_of_pos h, hrest, List.append_nil]
  · rw [List.dropWhile_append_of_pos h, hdrop]

section

variable {whole places rest : List Char}

theorem decimal_of_whole (hne : whole ≠ []) (hwhole : IsDigits whole)
    (hrest : rest.takeWhile Char.isDigit = []) (hpoint : rest.head? ≠ some '.') :
    Text.decimal? (whole ++ rest) =
      (Text.exponent? rest).map fun e => ⟨digitsValue whole, e⟩ := by
  obtain ⟨htake, hdrop⟩ := takeWhile_digits rest hwhole hrest
  unfold Text.decimal?
  rw [htake, hdrop]
  split
  · rename_i hsplit
    split at hsplit
    · exact absurd rfl hpoint
    · cases hsplit
      simp only
      rw [if_neg fun h => hne h.1, List.append_nil]
      simp only [List.length_nil, Nat.cast_zero, Int.sub_zero]

theorem decimal_of_places (hne : whole ≠ []) (hwhole : IsDigits whole) (hplaces : IsDigits places)
    (hrest : rest.takeWhile Char.isDigit = []) :
    Text.decimal? (whole ++ '.' :: (places ++ rest)) = (Text.exponent? rest).map fun e =>
      ⟨digitsValue (whole ++ places), e - places.length⟩ := by
  obtain ⟨htake, hdrop⟩ := takeWhile_digits ('.' :: (places ++ rest)) hwhole rfl
  obtain ⟨htake', hdrop'⟩ := takeWhile_digits rest hplaces hrest
  unfold Text.decimal?
  rw [htake, hdrop]
  simp only [htake', hdrop']
  exact if_neg fun h => hne h.1

end

/-- The parts of a number are told apart again. -/
theorem decimal_chars : ∀ {n : Numeral}, n.Proper → Text.decimal? n.chars = some n.decimal
  | ⟨whole, [], none⟩, h => absurd h.marked (by simp)
  | ⟨whole, [], some e⟩, h => by
    have hpoint : (exponentChars e).head? ≠ some '.' := by simp [exponentChars]
    refine (decimal_of_whole h.ne_nil h.whole rfl hpoint).trans ?_
    rw [exponent_exponentChars]
    simp [Numeral.decimal]
  | ⟨whole, c :: cs, exponent⟩, h => by
    have htail : ((exponent.map exponentChars).getD []).takeWhile Char.isDigit = [] := by
      rcases exponent with _ | e <;> rfl
    have hread : Text.exponent? ((exponent.map exponentChars).getD []) =
        some (exponent.getD 0) := by
      rcases exponent with _ | e
      · rfl
      · exact exponent_exponentChars e
    refine (decimal_of_places h.ne_nil h.whole h.places htail).trans ?_
    rw [hread]
    rfl

/-- Digits behind a point, and no exponent. -/
theorem plain_eq_chars (digits e : Nat) : ∃ n : Numeral, n.Proper ∧
    (⟨digits, .negSucc e⟩ : Decimal).plain = n.chars ∧ n.decimal = ⟨digits, .negSucc e⟩ := by
  have hdigits := isDigits_digitChars digits
  have hvalue := digitsValue_digitChars digits
  unfold Decimal.plain
  simp only
  generalize Decimal.digitChars digits = ds at hdigits hvalue
  split_ifs with hlen
  · have hplaces : (ds.drop (ds.length - (e + 1))).length = e + 1 := by
      rw [List.length_drop]
      omega
    have hne : ds.drop (ds.length - (e + 1)) ≠ [] :=
      List.ne_nil_of_length_eq_add_one hplaces
    have hwhole : ds.take (ds.length - (e + 1)) ≠ [] := by
      rw [← List.length_pos_iff, List.length_take]
      omega
    refine ⟨⟨ds.take (ds.length - (e + 1)), ds.drop (ds.length - (e + 1)), none⟩,
      ⟨hwhole, fun c hc => hdigits c (List.mem_of_mem_take hc),
        fun c hc => hdigits c (List.mem_of_mem_drop hc), .inl hne⟩, ?_, ?_⟩
    · simp only [Numeral.chars, if_neg hne, Option.map_none, Option.getD_none, List.append_nil]
    · simp only [Numeral.decimal, List.take_append_drop, hvalue, hplaces, Option.getD_none,
        Decimal.mk.injEq, true_and]
      omega
  · obtain ⟨places, hplaces⟩ : ∃ places, places = List.replicate (e + 1 - ds.length) '0' ++ ds :=
      ⟨_, rfl⟩
    have hlength : places.length = e + 1 := by
      rw [hplaces, List.length_append, List.length_replicate]
      omega
    have hne : places ≠ [] := List.ne_nil_of_length_eq_add_one hlength
    rw [← hplaces]
    refine ⟨⟨['0'], places, none⟩, ⟨List.cons_ne_nil _ _, isDigits_replicate 1, ?_, .inl hne⟩,
      ?_, ?_⟩
    · rw [hplaces]
      exact (isDigits_replicate _).append hdigits
    · simp only [Numeral.chars, if_neg hne, Option.map_none, Option.getD_none, List.append_nil]
      rfl
    · have hread : digitsValue (['0'] ++ places) = digits := by
        rw [hplaces]
        exact (digitsValue_zeros_append _ 1).trans ((digitsValue_zeros_append ds _).trans hvalue)
      simp only [Numeral.decimal, hread, hlength, Option.getD_none, Decimal.mk.injEq, true_and]
      omega

/-- The places of a whole number are a single zero. -/
theorem whole_eq_chars {digits : Nat} (hdigits : digits ≠ 0) (e : Nat) :
    ∃ n : Numeral, n.Proper ∧ (⟨digits, .ofNat e⟩ : Decimal).plain ++ ['.', '0'] = n.chars ∧
      n.decimal.value = (⟨digits, .ofNat e⟩ : Decimal).value := by
  refine ⟨⟨Decimal.digitChars digits ++ List.replicate e '0', ['0'], none⟩,
    ⟨List.append_ne_nil_of_left_ne_nil (digitChars_ne_nil digits) _,
      (isDigits_digitChars digits).append (isDigits_replicate e), isDigits_replicate 1,
      .inl (List.cons_ne_nil _ _)⟩, ?_, ?_⟩
  · simp only [Decimal.plain, if_neg hdigits]
    rfl
  · have hread : digitsValue (Decimal.digitChars digits ++ List.replicate e '0' ++ ['0']) =
        digits * 10 ^ e * 10 := by
      refine (digitsValue_append_zeros _ 1).trans ?_
      rw [digitsValue_append_zeros, digitsValue_digitChars, pow_one]
    simp only [Numeral.decimal, hread, Decimal.value]
    simp

/-- One digit before the point, and the exponent of that digit. -/
theorem scientific_eq_chars (d : Decimal) : ∃ n : Numeral, n.Proper ∧
    (match Decimal.digitChars d.digits with
      | [] => exponentChars d.magnitude
      | [c] => c :: exponentChars d.magnitude
      | c :: cs => c :: '.' :: (cs ++ exponentChars d.magnitude)) = n.chars ∧ n.decimal = d := by
  have hdigits := isDigits_digitChars d.digits
  have hvalue := digitsValue_digitChars d.digits
  obtain ⟨c, cs, hds⟩ := List.exists_cons_of_ne_nil (digitChars_ne_nil d.digits)
  rw [hds] at hdigits hvalue ⊢
  have hfirst : c.isDigit := hdigits c List.mem_cons_self
  refine ⟨⟨[c], cs, some d.magnitude⟩, ⟨List.cons_ne_nil _ _, List.forall_mem_singleton.2 hfirst,
    fun d hd => hdigits d (List.mem_cons_of_mem c hd), .inr rfl⟩, ?_, ?_⟩
  · rcases cs with _ | ⟨c', cs⟩
    · rfl
    · rfl
  · obtain ⟨digits, exponent⟩ := d
    simp only [Numeral.decimal, Decimal.magnitude, hds, List.singleton_append, hvalue,
      List.length_cons, Option.getD_some, Decimal.mk.injEq, true_and]
    omega

/-- The layout of JSON writes a numeral of the value. -/
theorem exists_numeral (d : Decimal) :
    ∃ n : Numeral, n.Proper ∧ d.jsonLayout = n.chars ∧ n.decimal.value = d.value := by
  unfold Decimal.jsonLayout
  by_cases hzero : d.digits = 0
  · refine ⟨⟨['0'], ['0'], none⟩, ⟨List.cons_ne_nil _ _, isDigits_replicate 1,
      isDigits_replicate 1, .inl (List.cons_ne_nil _ _)⟩, if_pos hzero, ?_⟩
    simp [Numeral.decimal, Decimal.value, hzero, digitsValue]
  simp only [if_neg hzero]
  by_cases hrange : -5 ≤ d.magnitude ∧ d.magnitude < 16
  · rw [if_pos hrange]
    obtain ⟨digits, e | e⟩ := d
    · rw [if_neg (by simp)]
      exact whole_eq_chars hzero e
    · rw [if_pos (Int.negSucc_lt_zero e)]
      obtain ⟨n, hproper, hchars, hdecimal⟩ := plain_eq_chars digits e
      exact ⟨n, hproper, hchars, by rw [hdecimal]⟩
  · rw [if_neg hrange]
    obtain ⟨n, hproper, hchars, hdecimal⟩ := scientific_eq_chars d
    exact ⟨n, hproper, hchars, by rw [hdecimal]⟩

theorem toLower_of_isDigit {c : Char} (h : c.isDigit) : c.toLower = c := by
  have hle : c.val ≤ '9'.val := (Bool.and_eq_true_iff.1 h).2 |> of_decide_eq_true
  refine dif_neg fun hupper => ?_
  exact absurd (UInt32.le_trans hupper.1 hle) (by decide)

theorem exists_cons_jsonLayout (d : Decimal) :
    ∃ c cs, d.jsonLayout = c :: cs ∧ c.isDigit := by
  obtain ⟨⟨whole, places, exponent⟩, hproper, hchars, -⟩ := exists_numeral d
  obtain ⟨c, cs, rfl⟩ := List.exists_cons_of_ne_nil hproper.ne_nil
  exact ⟨c, _, hchars, hproper.whole c List.mem_cons_self⟩

/-- A decimal in the layout of JSON is read by its value; it is no name of a number. -/
theorem rank_jsonLayout (d : Decimal) :
    Text.rank? .double d.jsonLayout = some (d.rank .double) := by
  obtain ⟨n, hproper, hchars, hvalue⟩ := exists_numeral d
  obtain ⟨c, cs, hcons, hdigit⟩ := exists_cons_jsonLayout d
  have hname : ∀ {c' name}, c'.isDigit = false → d.jsonLayout.map Char.toLower ≠ c' :: name := by
    intro c' name hc' h
    rw [hcons, List.map_cons, toLower_of_isDigit hdigit] at h
    cases (List.cons.inj h).1
    exact absurd hdigit (Bool.eq_false_iff.1 hc')
  have hinf : ¬ (d.jsonLayout.map Char.toLower = "inf".toList ∨
      d.jsonLayout.map Char.toLower = "infinity".toList) :=
    not_or.2 ⟨hname rfl, hname rfl⟩
  have hnan : ¬ d.jsonLayout.map Char.toLower = "nan".toList := hname rfl
  simp only [Text.rank?]
  rw [if_neg hinf, if_neg hnan, hchars, decimal_chars hproper]
  exact congrArg some (Decimal.rank_congr hvalue)

/-- A finite double is read as it was written for JSON. -/
theorem double_jsonNumberText {x : Float} (h : isFinite x) :
    Text.double? (jsonNumberText x) = some x := by
  have hlt : rankOf x < double.infinity := of_decide_eq_true h
  obtain ⟨d, hd, hrank⟩ : ∃ d : Decimal, jsonNumberText x = signedText (isNegative x) d.jsonLayout ∧
      d.rank .double = rankOf x := by
    refine ⟨_, rfl, ?_⟩
    split_ifs with hzero
    · rw [hzero]
      rfl
    · exact rank_shortest .even hlt.le
  have hread : Text.real? .double (signedText (isNegative x) d.jsonLayout) =
      some (isNegative x, rankOf x) := by
    have hranked := rank_jsonLayout d
    rw [hrank] at hranked
    rcases isNegative x with _ | _
    · obtain ⟨c, cs, hcons, hdigit⟩ := exists_cons_jsonLayout d
      rw [hcons] at hranked
      rw [signedText, if_neg Bool.false_ne_true, hcons]
      unfold Text.real?
      split
      · rename_i h
        cases h
        exact absurd hdigit (by decide)
      · rename_i h
        cases h
        exact absurd hdigit (by decide)
      · rw [hranked]
        rfl
    · rw [signedText, if_pos rfl, Text.real?, hranked]
      rfl
  rw [hd, Text.double?, hread]
  exact congrArg some (doubleOf_rankOf (isNumber_of_isFinite h))

end VirtualPeople
