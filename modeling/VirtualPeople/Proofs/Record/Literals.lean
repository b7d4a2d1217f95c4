import VirtualPeople.Proofs.Record.Lenses
import VirtualPeople.Proofs.Text.Numerals

/-!
# Literals

Of the texts that a value can be read from, its own is one: blanks around a literal, a plus, zeros
at the head of a number and the name of an enumerated value are gone once the value is written
again. The texts of integers are the numerals in range; the four kinds of integer differ in their
bounds only (`exists_areIntegers`). A type whose names look like numbers is the exception: where the
text of a number is the name of another (`FieldDescriptor.Shadows`), it is read as that one.
-/

namespace VirtualPeople

/-- The least and the greatest number of an integer kind. -/
def ScalarKind.bounds? : ScalarKind → Option (Int × Int)
  | int32 => some (-2147483648, 2147483647)
  | uint32 => some (0, 4294967295)
  | int64 => some (-9223372036854775808, 9223372036854775807)
  | uint64 => some (0, 18446744073709551615)
  | _ => none

/-- The number of a value of an integer kind. -/
def Value.integer? : Value → Option Int
  | int32 v => some v.toInt
  | uint32 v => some v.toNat
  | int64 v => some v.toInt
  | uint64 v => some v.toNat
  | _ => none

/-- The scalars of a kind are the integers between two bounds, read and written as such. -/
structure AreIntegers (k : ScalarKind) (lo hi : Int) (ofInt : Int → k.Carrier)
    (toInt : k.Carrier → Int) : Prop where
  read : ∀ (d : FieldDescriptor) cs, d.kind = .scalar k →
    d.ofChars? cs = (Text.integerIn? lo hi cs).map fun i => .of k (ofInt i)
  number : ∀ c, (Value.of k c).integer? = some (toInt c)
  written : ∀ c, (Value.of k c).chars = Text.integerText (toInt c)
  lo_le : ∀ c, lo ≤ toInt c
  le_hi : ∀ c, toInt c ≤ hi
  ofInt_toInt : ∀ c, ofInt (toInt c) = c
  toInt_ofInt : ∀ {i}, lo ≤ i → i ≤ hi → toInt (ofInt i) = i

theorem areIntegers_int32 :
    AreIntegers .int32 (-2147483648) 2147483647 Int32.ofInt Int32.toInt := by
  refine ⟨fun d cs hd => ?_, fun _ => rfl, fun _ => rfl, Int32.le_toInt,
    fun c => Int.lt_add_one_iff.1 c.toInt_lt, Int32.ofInt_toInt,
    fun hlo hhi => Int32.toInt_ofInt_of_le hlo (Int.lt_add_one_iff.2 hhi)⟩
  rw [FieldDescriptor.ofChars?, hd]
  rfl

theorem areIntegers_int64 :
    AreIntegers .int64 (-9223372036854775808) 9223372036854775807 Int64.ofInt Int64.toInt := by
  refine ⟨fun d cs hd => ?_, fun _ => rfl, fun _ => rfl, Int64.le_toInt,
    fun c => Int.lt_add_one_iff.1 c.toInt_lt, Int64.ofInt_toInt,
    fun hlo hhi => Int64.toInt_ofInt_of_le hlo (Int.lt_add_one_iff.2 hhi)⟩
  rw [FieldDescriptor.ofChars?, hd]
  rfl

theorem areIntegers_uint32 :
    AreIntegers .uint32 0 4294967295 (UInt32.ofNat ·.toNat) fun c => (c.toNat : Int) := by
  refine ⟨fun d cs hd => ?_, fun _ => rfl, fun _ => rfl, fun c => Int.natCast_nonneg _,
    fun c => ?_, fun c => ?_, fun hlo hhi => ?_⟩
  · rw [FieldDescriptor.ofChars?, hd]
    rfl
  · have hlt := c.toNat_lt
    omega
  · rw [Int.toNat_natCast, UInt32.ofNat_toNat]
  · rw [UInt32.toNat_ofNat_of_lt' (by rw [UInt32.size]; omega), Int.toNat_of_nonneg hlo]

theorem areIntegers_uint64 :
    AreIntegers .uint64 0 18446744073709551615 (UInt64.ofNat ·.toNat) fun c => (c.toNat : Int) := by
  refine ⟨fun d cs hd => ?_, fun _ => rfl, fun _ => rfl, fun c => Int.natCast_nonneg _,
    fun c => ?_, fun c => ?_, fun hlo hhi => ?_⟩
  · rw [FieldDescriptor.ofChars?, hd]
    rfl
  · have hlt := c.toNat_lt
    omega
  · rw [Int.toNat_natCast, UInt64.ofNat_toNat]
  · rw [UInt64.toNat_ofNat_of_lt' (by rw [UInt64.size]; omega), Int.toNat_of_nonneg hlo]

theorem exists_areIntegers {k : ScalarKind} {lo hi : Int} (h : k.bounds? = some (lo, hi)) :
    ∃ ofInt toInt, AreIntegers k lo hi ofInt toInt := by
  cases k <;> cases h
  · exact ⟨_, _, areIntegers_int32⟩
  · exact ⟨_, _, areIntegers_uint32⟩
  · exact ⟨_, _, areIntegers_int64⟩
  · exact ⟨_, _, areIntegers_uint64⟩

theorem exists_bounds {k : ScalarKind} (h : k.isInteger) : ∃ lo hi, k.bounds? = some (lo, hi) := by
  cases k <;> cases h <;> exact ⟨_, _, rfl⟩

/-- A number that fits a kind is that of the scalar it becomes. -/
theorem integer_of_ofInt {k : ScalarKind} {i : Int} {c : k.Carrier} (h : k.ofInt? i = some c) :
    (Value.of k c).integer? = some i := by
  unfold ScalarKind.ofInt? at h
  split at h
  case h_5 => cases h
  all_goals
    obtain ⟨⟨hlo, hhi⟩, heq⟩ := Option.ite_none_right_eq_some.1 h
    cases heq
    refine congrArg some ?_
  · exact areIntegers_int32.toInt_ofInt hlo (Int.lt_add_one_iff.1 hhi)
  · exact areIntegers_uint32.toInt_ofInt hlo (Int.lt_add_one_iff.1 hhi)
  · exact areIntegers_int64.toInt_ofInt hlo (Int.lt_add_one_iff.1 hhi)
  · exact areIntegers_uint64.toInt_ofInt hlo (Int.lt_add_one_iff.1 hhi)

namespace AreIntegers

variable {k : ScalarKind} {lo hi : Int} {ofInt : Int → k.Carrier} {toInt : k.Carrier → Int}
  {d : FieldDescriptor} {s : String} {v : Value}

theorem parse_eq_some_iff (hk : AreIntegers k lo hi ofInt toInt) (hd : d.kind = .scalar k) :
    d.parse? s = some v ↔
      ∃ i, Text.integerIn? lo hi (Text.trim s.toList) = some i ∧ .of k (ofInt i) = v := by
  rw [FieldDescriptor.parse?, hk.read d _ hd, Option.map_eq_some_iff]

/-- A text is read as a number exactly if it is a numeral in range that stands for it. -/
theorem parse_iff (hk : AreIntegers k lo hi ofInt toInt) (hd : d.kind = .scalar k) {i : Int} :
    (∃ v, d.parse? s = some v ∧ v.integer? = some i) ↔
      Text.Denotes (lo < 0) (Text.trim s.toList) i ∧ lo ≤ i ∧ i ≤ hi := by
  rw [← Text.integerIn_eq_some_iff]
  constructor
  · rintro ⟨v, hv, hi⟩
    obtain ⟨j, hj, rfl⟩ := (hk.parse_eq_some_iff hd).1 hv
    obtain ⟨-, hlo, hhi⟩ := Text.integerIn_eq_some_iff.1 hj
    rw [hk.number, hk.toInt_ofInt hlo hhi, Option.some_inj] at hi
    rw [hj, hi]
  · intro h
    obtain ⟨-, hlo, hhi⟩ := Text.integerIn_eq_some_iff.1 h
    refine ⟨.of k (ofInt i), (hk.parse_eq_some_iff hd).2 ⟨i, h, rfl⟩, ?_⟩
    rw [hk.number, hk.toInt_ofInt hlo hhi]

theorem parse_text (hk : AreIntegers k lo hi ofInt toInt) (hd : d.kind = .scalar k)
    (c : k.Carrier) : d.parse? (Value.of k c).text = some (.of k c) := by
  refine (hk.parse_eq_some_iff hd).2 ⟨toInt c, ?_, by rw [hk.ofInt_toInt]⟩
  rw [Value.text, String.toList_ofList, hk.written]
  exact Text.integerIn_integerText (hk.lo_le c) (hk.le_hi c)

theorem exists_integer (hk : AreIntegers k lo hi ofInt toInt) (hd : d.kind = .scalar k)
    (h : d.parse? s = some v) : ∃ i, v.integer? = some i := by
  obtain ⟨i, -, rfl⟩ := (hk.parse_eq_some_iff hd).1 h
  exact ⟨_, hk.number _⟩

end AreIntegers

namespace FieldDescriptor

variable {d : FieldDescriptor} {s : String} {v : Value} {n : Int32}

/-- The text of a number is a name of the type, and that of another number. -/
def Shadows (d : FieldDescriptor) (n : Int32) : Prop :=
  ∃ m, d.enumValues.lookup (Value.enum n).text = some m ∧ m ≠ n

/-- A number is one of the type. -/
def Declares (d : FieldDescriptor) (n : Int32) : Prop := ∃ entry ∈ d.enumValues, entry.2 = n

theorem parse_enum_iff (hd : d.kind = .scalar .gender) : d.parse? s = some v ↔
    ∃ n, d.number? (Text.trim s.toList) = some n ∧ d.Declares n ∧ .enum n = v := by
  simp only [parse?, ofChars?, hd, Option.map_eq_some_iff, Option.filter_eq_some_iff,
    List.any_eq_true, beq_iff_eq, and_assoc]
  rfl

theorem integerIn_chars_enum :
    Text.integerIn? (-2147483648) 2147483647 (Value.enum n).chars = some n.toInt := by
  have hread := Text.integerIn_integerText (areIntegers_int32.lo_le n) (areIntegers_int32.le_hi n)
  rwa [Text.trim_eq_self_iff.2 (Text.bare_integerText n.toInt)] at hread

/-- The text of a number is read as this number, unless it names another one. -/
theorem number_text_iff : d.number? (Value.enum n).chars = some n ↔ ¬ d.Shadows n := by
  have hread : (Text.integerIn? (-2147483648) 2147483647 (Value.enum n).chars).map Int32.ofInt =
      some n := by
    rw [integerIn_chars_enum, Option.map_some, Int32.ofInt_toInt]
  have htext : String.ofList (Value.enum n).chars = (Value.enum n).text := rfl
  unfold number? Shadows
  rw [htext]
  rcases d.enumValues.lookup (Value.enum n).text with _ | m
  · simp [hread]
  · simp

theorem parse_enum_text_iff (hd : d.kind = .scalar .gender) (hn : d.Declares n) :
    d.parse? (Value.enum n).text = some (.enum n) ↔ ¬ d.Shadows n := by
  have htrim : Text.trim (Value.enum n).text.toList = (Value.enum n).chars := by
    rw [Value.text, String.toList_ofList]
    exact Text.trim_eq_self_iff.2 (Text.bare_integerText n.toInt)
  rw [parse_enum_iff hd, htrim, ← number_text_iff]
  constructor
  · rintro ⟨m, hm, -, heq⟩
    cases heq
    exact hm
  · exact fun h => ⟨n, h, hn, rfl⟩

theorem parse_string (hd : d.kind = .scalar .string) :
    d.parse? s = some (.string (String.ofList (Text.trim s.toList))) := by
  simp only [parse?, ofChars?, hd]

theorem parse_text_string (hd : d.kind = .scalar .string) (h : Text.Bare s.toList) :
    d.parse? (Value.string s).text = some (.string s) := by
  have htext : (Value.string s).text = s := String.ofList_toList
  rw [htext, parse_string hd, Text.trim_eq_self_iff.2 h, String.ofList_toList]

theorem parse_text_bool (hd : d.kind = .scalar .bool) (b : Bool) :
    d.parse? (Value.bool b).text = some (.bool b) := by
  simp only [parse?, ofChars?, hd]
  cases b <;> rfl

theorem parse_text_integer (hinteger : v.kind.isInteger) (hd : d.kind = .scalar v.kind) :
    d.parse? v.text = some v := by
  obtain ⟨lo, hi, hbounds⟩ := exists_bounds hinteger
  obtain ⟨ofInt, toInt, hk⟩ := exists_areIntegers hbounds
  obtain ⟨c, hc⟩ := Value.exists_of_kind (rfl : v.kind = v.kind) fun n hn => by
    rw [hn] at hinteger
    cases hinteger
  rw [hc]
  exact hk.parse_text hd c

theorem kind_of_parse (h : d.parse? s = some v) : d.kind = .scalar v.kind := by
  unfold parse? ofChars? at h
  split at h <;> rename_i hd <;> rw [hd]
  case h_9 =>
    cases h
    rfl
  case h_10 => cases h
  case h_11 => cases h
  all_goals
    obtain ⟨_, -, rfl⟩ := Option.map_eq_some_iff.1 h
    rfl

/-- A value that is read from any text is read from its own, unless this names another number. -/
theorem parse_text_iff (hfloat : d.kind ≠ .scalar .float) (hdouble : d.kind ≠ .scalar .double)
    (h : d.parse? s = some v) :
    d.parse? v.text = some v ↔ ∀ n, v = .enum n → ¬ d.Shadows n := by
  have hd := kind_of_parse h
  cases v with
  | enum n =>
    obtain ⟨m, -, hdeclared, heq⟩ := (parse_enum_iff hd).1 h
    cases heq
    rw [parse_enum_text_iff hd hdeclared]
    exact ⟨fun hn _ heq => Value.enum.inj heq ▸ hn, fun hn => hn n rfl⟩
  | string text =>
    rw [parse_string hd] at h
    cases h
    refine iff_of_true (parse_text_string hd ?_) nofun
    rw [String.toList_ofList]
    exact Text.bare_trim _
  | bool b => exact iff_of_true (parse_text_bool hd b) nofun
  | float x => exact absurd hd hfloat
  | double x => exact absurd hd hdouble
  | _ => exact iff_of_true (parse_text_integer rfl hd) nofun

/-- No name of a gender looks like a number. -/
theorem not_shadows (k : FieldKind) (n : Int32) : ¬ k.descriptor.Shadows n := by
  rintro ⟨m, hm, -⟩
  have hname : ∀ entry ∈ k.descriptor.enumValues,
      Text.integerIn? (-2147483648) 2147483647 entry.1.toList = none := by
    unfold FieldKind.descriptor
    split
    · decide +kernel
    · exact List.forall_mem_nil _
  obtain ⟨before, after, hvalues, -⟩ := List.lookup_eq_some_iff.1 hm
  have hnone := hname ((Value.enum n).text, m) (by
    rw [hvalues]
    exact List.mem_append_right _ List.mem_cons_self)
  rw [Value.text, String.toList_ofList] at hnone
  cases hnone.symm.trans integerIn_chars_enum

/-- Whatever a field that is no floating-point number can be given in a literal has the kind of the
field, and it is read again from its own text unless that names another number, which never happens
to the fields of the schemas. Integers and truth values are read from theirs, and so are the
declared numbers that are not shadowed and strings without blanks around them. A literal of an
integer kind is a numeral, blanks around it or not, whose number is in range, and stands for that
number. -/
theorem literals_normal_form :
    (∀ (d : FieldDescriptor) (s : String) (v : Value), d.kind ≠ .scalar .float →
      d.kind ≠ .scalar .double → d.parse? s = some v →
        d.kind = .scalar v.kind ∧
          (d.parse? v.text = some v ↔ ∀ n, v = .enum n → ¬ d.Shadows n)) ∧
    (∀ (d : FieldDescriptor) (v : Value), d.kind = .scalar v.kind →
      v.kind.isInteger ∨ v.kind = .bool → d.parse? v.text = some v) ∧
    (∀ (d : FieldDescriptor) (n : Int32), d.kind = .scalar .gender → d.Declares n →
      (d.parse? (Value.enum n).text = some (.enum n) ↔ ¬ d.Shadows n)) ∧
    (∀ (d : FieldDescriptor) (s : String), d.kind = .scalar .string → Text.Bare s.toList →
      d.parse? (Value.string s).text = some (.string s)) ∧
    (∀ (d : FieldDescriptor) (k : ScalarKind) (lo hi : Int), d.kind = .scalar k →
      k.bounds? = some (lo, hi) → ∀ s : String,
      ((d.parse? s).isSome ↔
        ∃ i, Text.Denotes (lo < 0) (Text.trim s.toList) i ∧ lo ≤ i ∧ i ≤ hi) ∧
      ∀ i, (∃ v, d.parse? s = some v ∧ v.integer? = some i) ↔
        Text.Denotes (lo < 0) (Text.trim s.toList) i ∧ lo ≤ i ∧ i ≤ hi) ∧
    ∀ (k : FieldKind) (n : Int32), ¬ k.descriptor.Shadows n := by
  refine ⟨fun d s v hfloat hdouble h => ⟨kind_of_parse h, parse_text_iff hfloat hdouble h⟩,
    fun d v hd hv => ?_, fun d n hd hn => parse_enum_text_iff hd hn,
    fun d s hd hs => parse_text_string hd hs, ?_, not_shadows⟩
  · rcases hv with hinteger | hbool
    · exact parse_text_integer hinteger hd
    · cases v with
      | bool b => exact parse_text_bool hd b
      | _ => cases hbool
  · intro d k lo hi hd hbounds s
    obtain ⟨ofInt, toInt, hk⟩ := exists_areIntegers hbounds
    refine ⟨?_, fun i => hk.parse_iff hd⟩
    rw [Option.isSome_iff_exists]
    constructor
    · rintro ⟨v, hv⟩
      obtain ⟨i, hi⟩ := hk.exists_integer hd hv
      exact ⟨i, (hk.parse_iff hd).1 ⟨v, hv, hi⟩⟩
    · rintro ⟨i, hi⟩
      obtain ⟨v, hv, -⟩ := (hk.parse_iff hd).2 hi
      exact ⟨v, hv⟩

/-- A type with two values, of which the first is named like the number of the second. -/
def crossed : FieldDescriptor := ⟨.scalar .gender, [("2", 1), ("x", 2)]⟩

theorem literals_normal_form_crossed :
    (crossed.kind ≠ .scalar .float ∧ crossed.kind ≠ .scalar .double ∧
      crossed.parse? " x " = some (.enum 2) ∧ crossed.Declares 2) ∧
    ¬ (∀ n, Value.enum 2 = .enum n → ¬ crossed.Shadows n) ∧
    ((FieldKind.scalar .int32).descriptor.kind = .scalar .int32 ∧
      ScalarKind.bounds? .int32 = some (-2147483648, 2147483647) ∧
      ∃ v, (FieldKind.scalar .int32).descriptor.parse? " +007 " = some v ∧
        v.integer? = some 7) ∧
    Text.Denotes true (Text.trim " +007 ".toList) 7 := by
  obtain ⟨hagain, -, -, -, hnumerals, -⟩ := literals_normal_form
  have hparse : crossed.parse? " x " = some (.enum 2) := rfl
  have hother : crossed.parse? (Value.enum 2).text = some (.enum 1) := rfl
  have hseven : ∃ v, (FieldKind.scalar .int32).descriptor.parse? " +007 " = some v ∧
      v.integer? = some 7 := ⟨.int32 7, rfl, rfl⟩
  refine ⟨⟨by decide, by decide, hparse, _, .tail _ (.head _), rfl⟩, fun hn => ?_,
    ⟨rfl, rfl, hseven⟩, ?_⟩
  · have hsame := (hagain crossed " x " (.enum 2) (by decide) (by decide) hparse).2.2 hn
    cases hother.symm.trans hsame
  · exact (((hnumerals _ .int32 _ _ rfl rfl " +007 ").2 7).1 hseven).1

/-- The second value is read from its name, but its own text is read as the first; and a text need
not be trimmed to be read as an integer. -/
theorem crossed_reads_other :
    crossed.kind = .scalar .gender ∧ crossed.parse? "x" = some (.enum 2) ∧
      crossed.Declares 2 ∧ crossed.parse? (Value.enum 2).text = some (.enum 1) ∧
      (FieldKind.scalar .int32).descriptor.parse? " 7 " = some (.int32 7) ∧
      Text.trim " 7 ".toList ≠ " 7 ".toList :=
  ⟨rfl, rfl, ⟨_, .tail _ (.head _), rfl⟩, rfl, rfl, by decide⟩

end FieldDescriptor

end VirtualPeople
