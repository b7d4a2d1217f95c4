import VirtualPeople.Proofs.Distribution.Weights
import VirtualPeople.Proofs.Number.Converting
import VirtualPeople.Proofs.Update.Building
import VirtualPeople.Proofs.Update.Writing

/-!
# Shredding grows with psi

The larger `psi` is, the shorter is the step, which is positive and finite wherever something is
divided by it (`Shredder.goes_stepsOf`). So more steps fit into a variate, and an event that is
shredded for one `psi` is shredded for every larger one (`Shredder.stepsOf_mono`). What is written
is the target alone (`Shredder.changesOnly_updateBy`).
-/

namespace VirtualPeople

open Format (double)

/-- What is used of a natural logarithm. The logarithms of positive finite doubles are between -745
and 710, so a single holds them too. -/
structure IsLogarithm (ln : Float → Float) : Prop where
  mono : ∀ x y, 0.0 ≤ x → x ≤ y → ln x ≤ ln y
  finite : ∀ x, 0.0 < x → isFinite x → isFinite (widen (narrow (ln x)))
  below_one : ln (widen belowOne) ≤ -1.0 / 33554432.0

namespace IsLogarithm

variable {ln : Float → Float}

theorem isNumber_exponentialBy (hln : IsLogarithm ln) (text : String) :
    isNumber (exponentialBy ln text) := by
  obtain ⟨hzero, hone⟩ := uniform_mem text
  obtain ⟨-, hnumber, -⟩ := (double_le_iff _ _).1 hzero
  have hle : uniform text ≤ uniform text := (double_le_iff _ _).2 ⟨hnumber, hnumber, le_rfl⟩
  exact (signedRank_neg ((double_le_iff _ _).1 (hln.mono _ _ hzero hle)).1).1

/-- The larger `psi` has no larger step. -/
theorem shredStepBy_anti (hln : IsLogarithm ln) {psi psi' : Float32} (hpsi : 0.0 ≤ widen psi)
    (h : widen psi ≤ widen psi') : shredStepBy ln psi' ≤ shredStepBy ln psi :=
  double_neg_le_neg (widen_narrow_mono (hln.mono _ _ hpsi h))

/-- The step of a `psi` below one is no less than that of the single before one. -/
theorem shredStepBy_pos (hln : IsLogarithm ln) {psi : Float32} (hpsi : 0.0 ≤ widen psi)
    (h : widen psi < 1.0) : 0.0 < shredStepBy ln psi := by
  have hle := widen_narrow_mono (hln.mono _ _ hpsi (widen_le_belowOne_iff.2 h))
  have hneg : widen (narrow (ln (widen belowOne))) < 0.0 :=
    double_lt_of_le_of_lt (widen_narrow_mono hln.below_one) (by decide +kernel)
  exact zero_lt_neg (double_lt_of_le_of_lt hle hneg)

theorem isFinite_shredStepBy (hln : IsLogarithm ln) {psi : Float32} (hpsi : 0.0 < widen psi)
    (h : widen psi < 1.0) : isFinite (shredStepBy ln psi) := by
  obtain ⟨-, -, hpos⟩ := (double_lt_iff _ _).1 hpsi
  obtain ⟨-, -, hlt⟩ := (double_lt_iff _ _).1 h
  have hone : signedRank 1.0 < double.infinity := by decide +kernel
  have hlog := hln.finite _ hpsi (isFinite_of_lt hpos.le (hlt.trans hone))
  refine decide_eq_true ?_
  rw [shredStepBy, (double_neg (isNumber_of_isFinite hlog)).2]
  exact of_decide_eq_true hlog

end IsLogarithm

/-- The step of a `psi` may be divided by: it is positive and finite, and the quotient of a variate
by it is a number. -/
structure Divides (ln : Float → Float) (psi : Float32) : Prop where
  pos : 0.0 < shredStepBy ln psi
  finite : isFinite (shredStepBy ln psi)
  quotient : ∀ text, isNumber (exponentialBy ln text / shredStepBy ln psi)

theorem IsLogarithm.divides {ln : Float → Float} (hln : IsLogarithm ln) {psi : Float32}
    (hpsi : 0.0 < widen psi) (h : widen psi < 1.0) : Divides ln psi := by
  have hpos := hln.shredStepBy_pos (double_le_of_lt hpsi) h
  have hfinite := hln.isFinite_shredStepBy hpsi h
  exact ⟨hpos, hfinite, fun text =>
    (sign_div_of_pos (hln.isNumber_exponentialBy text) hpos hfinite).1⟩

namespace Shredder

variable {ln : Float → Float}

/-- How many steps the randomness of an event goes, once it is read. -/
def stepsOf (ln : Float → Float) (psi : Float32) (randomness : UInt64) : UInt64 :=
  if widen psi == 0 then 0
  else if widen psi == 1 then randomness
  else (exponentialBy ln (Value.uint64 randomness).text / shredStepBy ln psi).toUInt64

/-- What the steps are: none for a `psi` of zero, the randomness for one, and else a quotient that
is a number, of a variate by a step that may be divided by. -/
inductive Goes (ln : Float → Float) (psi : Float32) (randomness : UInt64) : UInt64 → Prop
  | none : widen psi == 0 → Goes ln psi randomness 0
  | all : widen psi == 1 → Goes ln psi randomness randomness
  | quotient : Divides ln psi → Goes ln psi randomness
      (exponentialBy ln (Value.uint64 randomness).text / shredStepBy ln psi).toUInt64

theorem goes_stepsOf (hln : IsLogarithm ln) {psi : Float32} (hlow : 0.0 ≤ widen psi)
    (hhigh : widen psi ≤ 1.0) (randomness : UInt64) :
    Goes ln psi randomness (stepsOf ln psi randomness) := by
  unfold stepsOf
  split_ifs with hzero hone
  · exact .none hzero
  · exact .all hone
  · have hpos := (double_lt_or_beq_of_le hlow).resolve_right fun heq => hzero (double_beq_symm heq)
    exact .quotient (hln.divides hpos ((double_lt_or_beq_of_le hhigh).resolve_right hone))

theorem stepsBy_eq {s : Shredder} {e : Event} {randomness : UInt64}
    (h : s.randomness.word? e = some randomness) :
    s.stepsBy ln e = .ok (stepsOf ln s.psi randomness) := by
  unfold stepsBy stepsOf
  rw [h]
  split_ifs <;> rfl

theorem stepsOf_between {psi : Float32} (hpos : 0.0 < widen psi) (hlt : widen psi < 1.0)
    (randomness : UInt64) :
    stepsOf ln psi randomness =
      (exponentialBy ln (Value.uint64 randomness).text / shredStepBy ln psi).toUInt64 :=
  (if_neg fun hzero => double_not_beq_of_lt hpos (double_beq_symm hzero)).trans
    (if_neg (double_not_beq_of_lt hlt))

/-- More steps go for a larger `psi`, up to one: there the randomness itself is taken, of which it
is only known that it is not zero. -/
theorem stepsOf_mono (hln : IsLogarithm ln) {psi psi' : Float32} (hpsi : 0.0 ≤ widen psi)
    (h : widen psi ≤ widen psi') (hpsi' : widen psi' ≤ 1.0) {randomness : UInt64}
    (hrandomness : randomness ≠ 0) :
    (stepsOf ln psi randomness ≠ 0 → stepsOf ln psi' randomness ≠ 0) ∧
      (widen psi' < 1.0 → stepsOf ln psi randomness ≤ stepsOf ln psi' randomness) := by
  rcases double_lt_or_beq_of_le hpsi' with hlt | hone
  · suffices hle : stepsOf ln psi randomness ≤ stepsOf ln psi' randomness from
      ⟨fun hne hzero => hne (UInt64.le_zero_iff.1 (hzero ▸ hle)), fun _ => hle⟩
    rcases double_lt_or_beq_of_le hpsi with hpos | hzero
    · have hpos' := double_lt_of_lt_of_le hpos h
      rw [stepsOf_between hpos (double_lt_of_le_of_lt h hlt), stepsOf_between hpos' hlt]
      exact toUInt64_div_anti (hln.isNumber_exponentialBy _)
        (hln.shredStepBy_pos (double_le_of_lt hpos') hlt)
        (hln.isFinite_shredStepBy hpos (double_lt_of_le_of_lt h hlt))
        (hln.shredStepBy_anti hpsi h)
    · rw [show stepsOf ln psi randomness = 0 from if_pos (double_beq_symm hzero)]
      exact UInt64.zero_le
  · have hzero : ¬ widen psi' == 0 := by
      intro hzero
      have hsame := ((double_beq_iff _ _).1 hone).2.2.symm.trans ((double_beq_iff _ _).1 hzero).2.2
      exact absurd hsame (by decide +kernel)
    rw [show stepsOf ln psi' randomness = randomness from (if_neg hzero).trans (if_pos hone)]
    exact ⟨fun _ => hrandomness, fun hlt => absurd hone (double_not_beq_of_lt hlt)⟩

end Shredder

/-- One scalar of a record is changed, where it stands: nothing else is, and no message is created
for it. -/
structure ChangesOnly {fs : Fields} {k : ScalarKind} (p : Path fs (.scalar k))
    (r r' : fs.Record) : Prop where
  scalars : ∀ l (q : Path fs (.scalar l)),
    (⟨.scalar l, q⟩ : (t : FieldType) × Path fs t) ≠ ⟨.scalar k, p⟩ → q.get r' = q.get r
  lists : ∀ t (q : Path fs (.list t)), q.get r' = q.get r
  messages : ∀ name gs (q : Path fs (.message name gs)),
    Option.isSome (q.get r') = Option.isSome (q.get r)

theorem ChangesOnly.refl {fs : Fields} {k : ScalarKind} (p : Path fs (.scalar k)) (r : fs.Record) :
    ChangesOnly p r r :=
  ⟨fun _ _ _ => rfl, fun _ _ => rfl, fun _ _ _ => rfl⟩

/-- The messages around a scalar that is set are there. -/
theorem changesOnly_set {fs : Fields} {k : ScalarKind} (p : Path fs (.scalar k)) {r : fs.Record}
    (h : Option.isSome (p.get r)) (v : Option k.Carrier) : ChangesOnly p r (p.set v r) where
  scalars l q hne := Path.get_set_of_ne (t := .scalar l) (fun _ _ => nofun) v q p hne r
  lists t q := Path.get_set_of_ne (t := .list t) (fun _ _ => nofun) v q p
    (fun hsame => nomatch congrArg Sigma.fst hsame) r
  messages _ _ q := by
    rw [Bool.eq_iff_iff, Path.isSome_get_set]
    refine ⟨?_, .inr⟩
    rintro (⟨rest, rfl⟩ | hset)
    · rw [Path.get_andThen] at h
      rcases hq : q.get r with _ | m
      · rw [hq] at h
        exact h
      · rfl
    · exact hset

theorem Shredder.changesOnly_updateBy {ln : Float → Float} {s : Shredder} {e e' : Event}
    (h : s.updateBy ln e = .ok () e') : ChangesOnly s.target.path e e' := by
  obtain ⟨steps, -, ⟨-, rfl⟩ | ⟨-, target, hset, hwrite⟩⟩ := updateBy_eq_ok.1 h
  · exact .refl s.target.path e'
  · obtain ⟨c, -, rfl⟩ := Field.write_eq_ok.1 hwrite
    refine changesOnly_set s.target.path ?_ (some c)
    have hread := Option.map_eq_some_iff.1 (ScalarField.word?_eq_some.1 hset)
    obtain ⟨v, hv, -⟩ := hread
    exact Option.isSome_iff_exists.2 ⟨v, hv⟩

namespace ShredderSpec

/-- Of two shredders that differ in `psi` only, the one with the larger `psi` shreds every event
that the other shreds, if its randomness is not zero, and unless this `psi` is one it goes no fewer
steps. Whatever `psi` is accepted, nothing is divided by zero and no quotient is no number, and a
shredder changes nothing but its target. Any logarithm may be taken; `update` takes `Float.log`. -/
theorem shreds_more {ln : Float → Float} (hln : IsLogarithm ln) (spec : ShredderSpec) :
    (∀ psi psi' s s', { spec with psi := psi }.build = .ok s →
      { spec with psi := psi' }.build = .ok s' → widen s.psi ≤ widen s'.psi →
      ∀ e randomness, s.randomness.word? e = some randomness → randomness ≠ 0 →
        ∃ steps steps', s.stepsBy ln e = .ok steps ∧ s'.stepsBy ln e = .ok steps' ∧
          (steps ≠ 0 → steps' ≠ 0) ∧ (widen s'.psi < 1.0 → steps ≤ steps')) ∧
    ∀ s, spec.build = .ok s →
      (∀ e randomness, s.randomness.word? e = some randomness →
        ∃ steps, s.stepsBy ln e = .ok steps ∧ Shredder.Goes ln s.psi randomness steps) ∧
      ∀ e e', s.updateBy ln e = .ok () e' → ChangesOnly s.target.path e e' := by
  refine ⟨fun psi psi' s s' h h' hpsi e randomness hread hrandomness => ?_,
    fun s h => ⟨fun e randomness hread => ?_, fun e e' => Shredder.changesOnly_updateBy⟩⟩
  · obtain ⟨⟨hlow, -⟩, -, hfield, -⟩ := build_eq_ok.1 h
    obtain ⟨⟨-, hhigh⟩, -, hfield', -⟩ := build_eq_ok.1 h'
    have hread' : s'.randomness.word? e = some randomness := by
      rwa [Except.ok.inj (hfield'.symm.trans hfield)]
    obtain ⟨hnonzero, hle⟩ := Shredder.stepsOf_mono hln hlow hpsi hhigh hrandomness
    exact ⟨_, _, Shredder.stepsBy_eq hread, Shredder.stepsBy_eq hread', hnonzero, hle⟩
  · obtain ⟨⟨hlow, hhigh⟩, -⟩ := build_eq_ok.1 h
    exact ⟨_, Shredder.stepsBy_eq hread, Shredder.goes_stepsOf hln hlow hhigh randomness⟩

/-- The logarithm at the uniform variate of 13, at a quarter and at a half, and at one. -/
def logarithmsOf13 (x : Float) : Float :=
  if x < 0.25 then -1.717972275523814
  else if x < 0.5 then -1.3862943611198906
  else if x < 1.0 then -0.6931471805599453
  else 0.0

theorem isLogarithm_logarithmsOf13 : IsLogarithm logarithmsOf13 where
  mono x y _ h := by
    have hbelow {a : Float} : y < a → x < a := double_lt_of_le_of_lt h
    unfold logarithmsOf13
    split_ifs <;> first | decide +kernel | grind
  finite x _ _ := by
    unfold logarithmsOf13
    split_ifs <;> decide +kernel
  below_one := by decide +kernel

/-- The acting fingerprint is shredded, with itself for randomness. -/
def selfShredding (psi : Float32) : ShredderSpec :=
  ⟨some psi, some "acting_fingerprint", some "acting_fingerprint", none⟩

def selfShredder (psi : Float32) : Shredder :=
  ⟨psi, ⟨"acting_fingerprint", .uint64, .field .here⟩,
    ⟨"acting_fingerprint", .uint64, .field .here⟩, ""⟩

theorem build_selfShredding {psi : Float32} (h : 0.0 ≤ widen psi ∧ widen psi ≤ 1.0) :
    (selfShredding psi).build = .ok (selfShredder psi) :=
  build_eq_ok.2 ⟨h, rfl, rfl, rfl, rfl⟩

/-- An event of fingerprint 13. -/
def thirteenth : Event :=
  (some 13, none, none, none, none, none, none, none, none, none, [], ())

theorem shreds_more_quarter_half :
    IsLogarithm logarithmsOf13 ∧
      (selfShredding 0.25).build = .ok (selfShredder 0.25) ∧
      { selfShredding 0.25 with psi := some 0.5 }.build = .ok (selfShredder 0.5) ∧
      (selfShredder 0.25).stepsBy logarithmsOf13 thirteenth = .ok 1 ∧
      (∃ steps, (selfShredder 0.5).stepsBy logarithmsOf13 thirteenth = .ok steps ∧ 1 ≤ steps) ∧
      Shredder.Goes logarithmsOf13 0.25 13 1 ∧
      ∃ e, (selfShredder 0.25).updateBy logarithmsOf13 thirteenth = .ok () e ∧ e ≠ thirteenth ∧
        ChangesOnly (selfShredder 0.25).target.path thirteenth e := by
  have hquarter : (selfShredding 0.25).build = .ok (selfShredder 0.25) :=
    build_selfShredding (by decide +kernel)
  have hhalf : { selfShredding 0.25 with psi := some 0.5 }.build = .ok (selfShredder 0.5) :=
    build_selfShredding (by decide +kernel)
  have hone : (selfShredder 0.25).stepsBy logarithmsOf13 thirteenth = .ok 1 := by
    have hread : (selfShredder 0.25).randomness.word? thirteenth = some 13 := rfl
    rw [Shredder.stepsBy_eq hread]
    exact congrArg Except.ok (by decide +kernel)
  have hupdate := Shredder.updateBy_eq_ok.2 ⟨1, hone, .inr ⟨by decide, 13, rfl, rfl⟩⟩
  obtain ⟨hmono, hsound⟩ := shreds_more isLogarithm_logarithmsOf13 (selfShredding 0.25)
  obtain ⟨steps, steps', hsteps, hsteps', -, hle⟩ := hmono (some 0.25) (some 0.5) _ _ hquarter hhalf
    (by decide +kernel) thirteenth 13 rfl (by decide)
  obtain rfl := Except.ok.inj (hone.symm.trans hsteps)
  obtain ⟨hgoes, hchanges⟩ := hsound _ hquarter
  obtain ⟨steps, hsteps, hgoes⟩ := hgoes thirteenth 13 rfl
  obtain rfl := Except.ok.inj (hone.symm.trans hsteps)
  refine ⟨isLogarithm_logarithmsOf13, hquarter, hhalf, hone,
    ⟨steps', hsteps', hle (by decide +kernel)⟩, hgoes, _, hupdate, fun hsame => ?_,
    hchanges _ _ hupdate⟩
  have hfingerprint := congrArg Event.actingFingerprint hsame
  exact absurd hfingerprint (by decide +kernel)

end ShredderSpec

end VirtualPeople
