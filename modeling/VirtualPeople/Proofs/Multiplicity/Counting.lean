import VirtualPeople.Proofs.Multiplicity.Capping
import VirtualPeople.Proofs.Multiplicity.Seeds
import VirtualPeople.Proofs.Record.Naming

/-!
# Counting copies

An event is counted by an expected number, a constant or the number in a field of the event. Two
events, or one event under two constants, that are alike but for that number have one seed
(`Multiplicity.Expecting.count_eq`), so the smaller number counts no more often, and all numbers
above a bound that caps count alike. The number within the bound is the smaller of the two
(`Multiplicity.valueOf_effective`), and a whole number counts itself. All this is
`Multiplicity.count_monotone_and_capped`.
-/

namespace VirtualPeople

theorem Value.exists_toDouble : ∀ {k : ScalarKind}, k.isNumeric = true → ∀ v : k.Carrier,
    ∃ x, (Value.of k v).toDouble? = some x
  | .int32, _, _ => ⟨_, rfl⟩
  | .uint32, _, _ => ⟨_, rfl⟩
  | .int64, _, _ => ⟨_, rfl⟩
  | .uint64, _, _ => ⟨_, rfl⟩
  | .float, _, _ => ⟨_, rfl⟩
  | .double, _, _ => ⟨_, rfl⟩

/-- A whole number is rounded to itself by every seed. -/
theorem roundBySeed_of_whole {x : Float} (hx : isFinite x) {n : ℕ} (h : valueOf x = n)
    (hn : n < 2 ^ 64) (seed : UInt64) : roundBySeed x seed = n := by
  have hunits := isUnits_of_natCast hx h
  have hwhole : wholeOf x = n := by
    rw [wholeOf, h, Nat.floor_natCast]
  have hup : seedsUp x = 0 := by
    rw [seedsUp, hwhole, h, sub_self, zero_mul, Nat.floor_zero]
  rw [hunits.roundBySeed_eq (by omega), hup, if_neg (Nat.not_lt_zero _), hwhole]

namespace Multiplicity

variable {m : Multiplicity} {e : Event} {x y : Float}

/-- A field that the expected number is read from is found by its name, and is numeric. -/
def Sourced (m : Multiplicity) : Prop :=
  ∀ f, m.expected = .field f →
    Schema.event.field f.text = .ok (.scalar f) ∧ f.kind.isNumeric = true

/-- The field that the expected number is read from is unset. -/
def SourceUnset (m : Multiplicity) (e : Event) : Prop :=
  ∃ f, m.expected = .field f ∧ f.get e = none

/-- The number within the bound. -/
def effective (m : Multiplicity) (x : Float) : Float := if m.max < x then m.max else x

/-- The number is above a bound that does not cap, or negative within the bound. -/
def Refuses (m : Multiplicity) (x : Float) : Prop :=
  m.max < x ∧ m.capAtMax = false ∨ m.effective x < 0.0

/-- The seed by which the number of copies of an event is rounded. -/
def countSeed (m : Multiplicity) (e : Event) : UInt64 :=
  fingerprint (m.seed ++ (Value.uint64 e.fingerprint).text)

/-- A multiplicity and an event that differ from given ones in the expected number alone: it is a
constant, or it stands in the field that it is read from. The fingerprint is no such field, for the
seed comes from it. -/
inductive Expecting (m : Multiplicity) (e : Event) (x : Float) : Multiplicity → Event → Prop
  | constant : Expecting m e x (m.expecting x) e
  | field {f : ScalarField Schema.event.fields} {v : f.kind.Carrier} : m.expected = .field f →
      f.text ≠ "acting_fingerprint" → (Value.of f.kind v).toDouble? = some x →
      Expecting m e x m (f.put v e)

theorem field_of_buildExpected {value : Option Float} {text : Option String}
    {f : ScalarField Schema.event.fields}
    (h : MultiplicitySpec.buildExpected value text = .ok (.field f)) :
    Schema.event.field f.text = .ok (.scalar f) ∧ f.kind.isNumeric = true := by
  unfold MultiplicitySpec.buildExpected at h
  split at h
  · cases h
  · obtain ⟨field | field, hfield, h⟩ := bind_eq_ok.1 h
    · simp only at h
      split_ifs at h with hnumeric
      · cases h
        rcases MessageType.field_eq_ok hfield with ⟨k, p, -, heq⟩ | ⟨n, gs, p, -, heq⟩
        · cases heq
          exact ⟨hfield, hnumeric⟩
        · cases heq
      · exact (invalidModel_ne_ok h).elim
    · exact (invalidModel_ne_ok h).elim
  · cases h
  · cases h

theorem sourced_of_build {spec : MultiplicitySpec} (h : spec.build = .ok m) : m.Sourced := by
  simp only [MultiplicitySpec.build, bind_eq_ok, pure_eq_ok] at h
  obtain ⟨_, -, _, -, _, -, _, -, expected, hexpected, _, -, rfl⟩ := h
  intro f hf
  obtain rfl : expected = .field f := hf
  exact field_of_buildExpected hexpected

theorem expectedOf_of_field {f : ScalarField Schema.event.fields} (hf : m.expected = .field f)
    {v : f.kind.Carrier} (hv : f.get e = some v) (hx : (Value.of f.kind v).toDouble? = some x) :
    m.expectedOf e = .ok x := by
  unfold expectedOf
  rw [hf]
  simp only [ScalarField.get?, hv, Option.map_some, Option.bind_some, hx]
  rfl

theorem exists_expectedOf_iff (hs : m.Sourced) :
    (∃ x, m.expectedOf e = .ok x) ↔ ¬ m.SourceUnset e := by
  constructor
  · rintro ⟨x, h⟩ ⟨f, hf, hunset⟩
    unfold expectedOf at h
    rw [hf] at h
    simp only [ScalarField.get?, hunset, Option.map_none, Option.bind_none] at h
    exact invalidEvent_ne_ok h
  · intro hset
    rcases hexpected : m.expected with value | f
    · exact ⟨value, by rw [expectedOf, hexpected]; rfl⟩
    · rcases hv : f.get e with _ | v
      · exact absurd ⟨f, hexpected, hv⟩ hset
      · obtain ⟨x, hx⟩ := Value.exists_toDouble (hs f hexpected).2 v
        exact ⟨x, expectedOf_of_field hexpected hv hx⟩

theorem bounded_eq_ok_iff :
    m.bounded x = .ok y ↔ ¬ m.Refuses x ∧ m.effective x = y := by
  unfold Refuses bounded effective
  by_cases hlt : m.max < x
  · simp only [hlt, true_and]
    rcases m.capAtMax
    · simp
    · by_cases hneg : m.max < 0.0
      · simp [hneg]
      · simp [hneg]
  · simp only [hlt, false_and, false_or]
    by_cases hneg : x < 0.0
    · simp [hneg]
    · simp [hneg]

theorem isFinite_effective (hmax : m.Capped) (hx : isFinite x) : isFinite (m.effective x) := by
  unfold effective
  split_ifs
  · exact hmax
  · exact hx

theorem valueOf_effective (hmax : m.Capped) (hx : isFinite x) :
    valueOf (m.effective x) = min (valueOf x) (valueOf m.max) := by
  have hiff := valueOf_lt_iff (isNumber_of_isFinite hmax) (isNumber_of_isFinite hx)
  unfold effective
  split_ifs with hlt
  · exact (min_eq_right (hiff.2 hlt).le).symm
  · exact (min_eq_left (not_lt.1 (mt hiff.1 hlt))).symm

theorem refuses_iff (hmax : m.Capped) (hx : isFinite x) :
    m.Refuses x ↔
      m.max < x ∧ m.capAtMax = false ∨ min (valueOf x) (valueOf m.max) < 0 := by
  rw [← valueOf_effective hmax hx, valueOf_neg_iff (isFinite_effective hmax hx)]
  rfl

theorem count_of_expectedOf (h : m.expectedOf e = .ok x) :
    m.count e = (m.expecting x).count e := by
  have hconstant : (m.expecting x).expectedOf e = .ok x := rfl
  unfold count
  rw [h, hconstant]
  rfl

theorem count_expecting_eq :
    (m.expecting x).count e = m.bounded x >>= fun y => pure (roundBySeed y (m.countSeed e)) :=
  rfl

theorem count_expecting_eq_ok {copies : ℕ} : (m.expecting x).count e = .ok copies ↔
    ¬ m.Refuses x ∧ roundBySeed (m.effective x) (m.countSeed e) = copies := by
  rw [count_expecting_eq]
  simp only [bind_eq_ok, pure_eq_ok, bounded_eq_ok_iff]
  constructor
  · rintro ⟨_, ⟨haccepted, rfl⟩, h⟩
    exact ⟨haccepted, h⟩
  · rintro ⟨haccepted, h⟩
    exact ⟨_, ⟨haccepted, rfl⟩, h⟩

/-- Of events that differ in the expected number alone, a count depends on that number alone. -/
theorem Expecting.count_eq (hs : m.Sourced) {m' : Multiplicity} {e' : Event}
    (h : m.Expecting e x m' e') : m'.count e' = (m.expecting x).count e := by
  cases h with
  | constant => rfl
  | @field f v hf hne hx =>
    have hget : f.get (f.put v e) = some v := Path.get_set f.path (some v) e
    have hseed : m.countSeed (f.put v e) = m.countSeed e := by
      unfold countSeed
      rw [Event.fingerprint_put (hs f hf).1 hne]
    rw [count_of_expectedOf (expectedOf_of_field hf hget hx), count_expecting_eq,
      count_expecting_eq, hseed]

theorem count_expecting_mono {few many : ℕ} (hmax : m.Capped) (hx : isFinite x) (hy : isFinite y)
    (h : x ≤ y) (hfew : (m.expecting x).count e = .ok few)
    (hmany : (m.expecting y).count e = .ok many) : few ≤ many := by
  obtain ⟨haccepted, rfl⟩ := count_expecting_eq_ok.1 hfew
  obtain ⟨-, rfl⟩ := count_expecting_eq_ok.1 hmany
  have hx' := isNumber_of_isFinite (isFinite_effective hmax hx)
  have hy' := isNumber_of_isFinite (isFinite_effective hmax hy)
  have hle : m.effective x ≤ m.effective y := by
    rw [← valueOf_le_iff hx' hy', valueOf_effective hmax hx, valueOf_effective hmax hy]
    exact min_le_min_right _ (valueOf_mono h)
  exact roundBySeed_mono _ (rankOf_mono hle fun hneg => haccepted (.inr hneg)) hy'

/-- Above a bound that caps, the bound itself is counted. -/
theorem count_expecting_of_max_lt (hcap : m.capAtMax = true) (h : m.max < x) :
    (m.expecting x).count e = (m.expecting m.max).count e := by
  have hbounded : m.bounded x = m.bounded m.max := by
    have hirrefl : ¬ m.max < m.max := fun hlt => lt_irrefl _ ((double_lt_iff _ _).1 hlt).2.2
    unfold bounded
    rw [if_pos h, if_pos hcap, if_neg hirrefl]
  rw [count_expecting_eq, count_expecting_eq, hbounded]

theorem count_expecting_of_whole {copies n : ℕ} (hmax : m.Capped) (hx : isFinite x)
    (hlt : valueOf x < 2 ^ 63) (h : (m.expecting x).count e = .ok copies)
    (hn : min (valueOf x) (valueOf m.max) = n) : copies = n := by
  obtain ⟨-, rfl⟩ := count_expecting_eq_ok.1 h
  have hvalue := (valueOf_effective hmax hx).trans hn
  have hbelow : (n : ℚ) < 2 ^ 63 := hn ▸ (min_le_left _ _).trans_lt hlt
  have hfits : n < 2 ^ 63 := by exact_mod_cast hbelow
  exact roundBySeed_of_whole (isFinite_effective hmax hx) hvalue (by omega) _

theorem count_expecting_le {copies : ℕ} (hmax : m.Capped) (hx : isFinite x)
    (h : (m.expecting x).count e = .ok copies) : (copies : ℤ) ≤ ⌈valueOf m.max⌉ := by
  have hle : copies ≤ m.cap := (m.expecting x).count_le_cap hmax h
  have haccepted := (count_expecting_eq_ok.1 h).1
  rw [refuses_iff hmax hx] at haccepted
  have hnonneg : 0 ≤ valueOf m.max :=
    (not_lt.1 fun hneg => haccepted (.inr hneg)).trans (min_le_right _ _)
  rw [← Int.natCast_ceil_eq_ceil hnonneg]
  exact Int.ofNat_le.2 hle

theorem count_fails_iff (hmax : m.Capped) (hs : m.Sourced)
    (hfinite : ∀ x, m.expectedOf e = .ok x → isFinite x) :
    (∃ err, m.count e = .error err) ↔ m.SourceUnset e ∨ ∃ x, m.expectedOf e = .ok x ∧
      (m.max < x ∧ m.capAtMax = false ∨ min (valueOf x) (valueOf m.max) < 0) := by
  rw [exists_error_iff]
  by_cases hunset : m.SourceUnset e
  · refine iff_of_true ?_ (.inl hunset)
    rintro ⟨copies, hcount⟩
    obtain ⟨x, hx, -⟩ := bind_eq_ok.1 hcount
    exact (exists_expectedOf_iff hs).1 ⟨x, hx⟩ hunset
  · obtain ⟨x, hx⟩ := (exists_expectedOf_iff hs).2 hunset
    have hcounts : (∃ copies, m.count e = .ok copies) ↔ ¬ m.Refuses x := by
      rw [count_of_expectedOf hx]
      simp only [count_expecting_eq_ok, exists_and_left, exists_eq', and_true]
    rw [hcounts, not_not, refuses_iff hmax (hfinite x hx), or_iff_right hunset]
    constructor
    · exact fun hrefuses => ⟨x, hx, hrefuses⟩
    · rintro ⟨y, hy, hrefuses⟩
      obtain rfl : x = y := Except.ok.inj (hx.symm.trans hy)
      exact hrefuses

/-- A larger expected number never counts less, no count is above the bound rounded up, and a whole
number within the bound counts itself; above a bound that caps, the bound counts. A count fails just
when the expected number is unset, when it is above a bound that does not cap, and when it is
negative within the bound. -/
theorem count_monotone_and_capped {spec : MultiplicitySpec} (h : spec.build = .ok m)
    (hmax : m.Capped) (e : Event) :
    (∀ {x y m₁ e₁ m₂ e₂}, m.Expecting e x m₁ e₁ → m.Expecting e y m₂ e₂ →
      isFinite x → isFinite y →
      (x ≤ y → ∀ few many, m₁.count e₁ = .ok few → m₂.count e₂ = .ok many → few ≤ many) ∧
      (m.capAtMax = true → m.max < x → y = m.max → m₁.count e₁ = m₂.count e₂)) ∧
    (∀ x, m.expectedOf e = .ok x → isFinite x → valueOf x < 2 ^ 63 →
      ∀ copies, m.count e = .ok copies → (copies : ℤ) ≤ ⌈valueOf m.max⌉ ∧
        ∀ n : ℕ, min (valueOf x) (valueOf m.max) = n → copies = n) ∧
    ((∀ x, m.expectedOf e = .ok x → isFinite x) →
      ((∃ err, m.count e = .error err) ↔ m.SourceUnset e ∨ ∃ x, m.expectedOf e = .ok x ∧
        (m.max < x ∧ m.capAtMax = false ∨ min (valueOf x) (valueOf m.max) < 0))) := by
  have hs := sourced_of_build h
  refine ⟨fun h₁ h₂ hx hy => ⟨fun hle few many hfew hmany => ?_, fun hcap hlt heq => ?_⟩,
    fun x hexpected hx hlt copies hcount => ?_, count_fails_iff hmax hs⟩
  · rw [h₁.count_eq hs] at hfew
    rw [h₂.count_eq hs] at hmany
    exact count_expecting_mono hmax hx hy hle hfew hmany
  · rw [h₁.count_eq hs, h₂.count_eq hs, heq]
    exact count_expecting_of_max_lt hcap hlt
  · rw [count_of_expectedOf hexpected] at hcount
    exact ⟨count_expecting_le hmax hx hcount,
      fun n => count_expecting_of_whole hmax hx hlt hcount⟩

/-- The fingerprint of the id in the input of an event. -/
def idFingerprint : ScalarField Schema.event.fields :=
  ⟨"labeler_input.event_id.id_fingerprint", .uint64,
    .into (.there (.there (.there (.there (.there .here)))))
      (.into (.there (.there .here)) (.field (.there .here)))⟩

/-- The event of an id with a fingerprint. -/
def withId (n : UInt64) : Event := idFingerprint.put n Event.empty

/-- The number in an input, capped at two and a half. -/
def cappedById : Multiplicity :=
  ⟨.field idFingerprint, true, 2.5, ⟨"multiplicity_person_index", .int32,
    .field (.there (.there (.there .here)))⟩, ""⟩

theorem valueOf_two : valueOf 2.0 = 2 := by
  have hrank : rankOf 2.0 = 1023 * 2 ^ 52 + 2 ^ 52 := rfl
  have hunits : IsUnits 2.0 (units (1023 * 2 ^ 52 + 2 ^ 52)) :=
    .of_sign hrank (by decide) (.inl rfl)
  rw [units_eq (by decide) (.inr le_rfl), ← pow_add, show 52 + 1023 = 1 + 1074 from rfl, pow_add,
    pow_one] at hunits
  exact hunits.valueOf_natCast

theorem count_monotone_and_capped_byId :
    (⟨none, some "labeler_input.event_id.id_fingerprint", some 2.5, some true,
      some "multiplicity_person_index", some ""⟩ : MultiplicitySpec).build = .ok cappedById ∧
    cappedById.Capped ∧
    (∀ few many, cappedById.count (withId 1) = .ok few → cappedById.count (withId 3) = .ok many →
      few ≤ many) ∧
    cappedById.count (withId 3) = (cappedById.expecting 2.5).count Event.empty ∧
    (∀ copies, cappedById.count (withId 2) = .ok copies → copies = 2) ∧
    ∃ err, cappedById.count Event.empty = .error err := by
  have hbuild : (⟨none, some "labeler_input.event_id.id_fingerprint", some 2.5, some true,
      some "multiplicity_person_index", some ""⟩ : MultiplicitySpec).build = .ok cappedById := rfl
  have hmax : cappedById.Capped := rfl
  have hname : idFingerprint.text ≠ "acting_fingerprint" := by decide
  have hone : cappedById.Expecting Event.empty 1.0 cappedById (withId 1) := .field rfl hname rfl
  have hthree : cappedById.Expecting Event.empty 3.0 cappedById (withId 3) := .field rfl hname rfl
  obtain ⟨hcounts, -, hfails⟩ := count_monotone_and_capped hbuild hmax Event.empty
  obtain ⟨-, hwhole, -⟩ := count_monotone_and_capped hbuild hmax (withId 2)
  have hleast : min (valueOf 2.0) (valueOf cappedById.max) = (2 : ℕ) := by
    rw [min_eq_left (valueOf_mono (by decide)), valueOf_two, Nat.cast_ofNat]
  refine ⟨hbuild, hmax, (hcounts hone hthree rfl rfl).1 (by decide),
    (hcounts hthree .constant rfl hmax).2 rfl (by decide) rfl, fun copies hcopies => ?_,
    (hfails nofun).2 (.inl ⟨idFingerprint, rfl, rfl⟩)⟩
  exact (hwhole 2.0 rfl rfl (by rw [valueOf_two]; norm_num) copies hcopies).2 2 hleast

end Multiplicity

end VirtualPeople
