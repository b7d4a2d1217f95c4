import VirtualPeople.Model.Node
import VirtualPeople.Proofs.Record.Commuting
import VirtualPeople.Proofs.Update.Building
import VirtualPeople.Proofs.Update.Writing
import Mathlib.Data.List.Perm.Basic
import Mathlib.Tactic.SplitIfs

/-!
# Assignments touch only their targets

A conditional assignment that is built never fails, because the fields of a pair have one kind. It
copies by name (`Transfer.runAll_of_builds`): a scalar ends with what the last copy to it that read
something has read (`Transfer.read_runAll`), and everything else stays. Copies to different scalars
whose sources are no targets may run in any order (`Transfer.runAll_perm`).
-/

namespace VirtualPeople

/-- The scalar of an event that a name leads to. -/
def Event.read (name : String) (e : Event) : Option Value :=
  match Schema.event.field name with
  | .ok f => f.get? e
  | .error _ => none

/-- A scalar that is copied to another, by their names. -/
structure Transfer where
  source : String
  target : String

namespace Transfer

/-- How a copy is written as an assignment. -/
def spec (c : Transfer) : AssignmentSpec := ⟨some c.source, some c.target⟩

theorem spec_injective : Function.Injective spec := by
  rintro ⟨_, _⟩ ⟨_, _⟩ h
  cases h
  rfl

/-- Writes what the source reads to the target, which fails for a value of another kind. -/
def run (c : Transfer) : Labeling := fun e =>
  match Event.read c.source e with
  | none => .ok () e
  | some v =>
    match Schema.event.field c.target with
    | .ok f => f.write Schema.event.name v e
    | .error err => .error err e

/-- Runs copies one after the other. -/
def runAll : List Transfer → Labeling
  | [] => fun e => .ok () e
  | c :: rest => fun e =>
    match c.run e with
    | .ok () e => runAll rest e
    | .error err e => .error err e

/-- The copy at a place reads a value for a target, after those before it. -/
def Reads (copies : List Transfer) (e : Event) (place : Nat) (target : String) (v : Value) : Prop :=
  ∃ c s, copies[place]? = some c ∧ c.target = target ∧
    runAll (copies.take place) e = .ok () s ∧ Event.read c.source s = some v

/-- A copy is built to an assignment between the fields of its names, which are of one kind. -/
structure Builds (c : Transfer) (a : Assignment) : Prop where
  source : Schema.event.field c.source = .ok (.scalar a.source)
  target : Schema.event.field c.target = .ok (.scalar a.target)
  kind : a.target.kind = a.source.kind
  assignable : a.source.kind.isAssignable

end Transfer

namespace AssignmentSpec

/-- What is built is a copy between two scalars of one kind that may be assigned. -/
theorem build_eq_ok {s : AssignmentSpec} {a : Assignment} :
    s.build = .ok a ↔ ∃ c : Transfer, s = c.spec ∧ c.Builds a := by
  constructor
  · intro h
    unfold build at h
    split at h
    · exact (invalidModel_ne_ok h).elim
    · exact (invalidModel_ne_ok h).elim
    · rename_i source target hsource htarget
      simp only [bind_eq_ok] at h
      obtain ⟨f, hf, g, hg, hpair⟩ := h
      obtain ⟨rfl, rfl, hkind, hassignable⟩ := pair_eq_ok.1 hpair
      refine ⟨⟨source, target⟩, ?_, hf, hg, hkind, hassignable⟩
      obtain ⟨_, _⟩ := s
      cases hsource
      cases htarget
      rfl
  · rintro ⟨c, rfl, hsource, htarget, hkind, hassignable⟩
    simp only [build, Transfer.spec, bind_eq_ok]
    exact ⟨_, hsource, _, htarget, pair_eq_ok.2 ⟨rfl, rfl, hkind, hassignable⟩⟩

theorem forall₂_build_iff {specs : List AssignmentSpec} {assignments : List Assignment} :
    List.Forall₂ (fun s a => build s = .ok a) specs assignments ↔
      ∃ copies : List Transfer, specs = copies.map Transfer.spec ∧
        List.Forall₂ Transfer.Builds copies assignments := by
  constructor
  · intro h
    induction h with
    | nil => exact ⟨[], rfl, .nil⟩
    | cons h _ ih =>
      obtain ⟨c, rfl, hc⟩ := build_eq_ok.1 h
      obtain ⟨copies, rfl, hcopies⟩ := ih
      exact ⟨c :: copies, rfl, .cons hc hcopies⟩
  · rintro ⟨copies, rfl, h⟩
    rw [List.forall₂_map_left_iff]
    exact h.imp fun c a hc => build_eq_ok.2 ⟨c, rfl, hc⟩

end AssignmentSpec

namespace ConditionalAssignmentSpec

/-- A conditional assignment is built of its condition and a copy for each assignment. -/
theorem build_eq_ok {s : ConditionalAssignmentSpec} {built : ConditionalAssignment} :
    s.build = .ok built ↔ ∃ condition, s.condition = some condition ∧
      condition.build Schema.event = .ok built.condition ∧ s.assignments ≠ [] ∧
      ∃ copies : List Transfer, s.assignments = copies.map Transfer.spec ∧
        List.Forall₂ Transfer.Builds copies built.assignments := by
  unfold build
  rcases s.condition with _ | condition
  · exact iff_of_false invalidModel_ne_ok nofun
  simp only [Option.some.injEq, exists_eq_left']
  split_ifs with hempty
  · rw [List.isEmpty_iff] at hempty
    exact iff_of_false invalidModel_ne_ok fun h => h.2.1 hempty
  rw [List.isEmpty_iff] at hempty
  simp only [bind_eq_ok, pure_eq_ok, mapM_eq_ok, ← AssignmentSpec.forall₂_build_iff]
  constructor
  · rintro ⟨filter, hfilter, assignments, hassignments, rfl⟩
    exact ⟨hfilter, hempty, hassignments⟩
  · rintro ⟨hfilter, -, hassignments⟩
    exact ⟨_, hfilter, _, hassignments, rfl⟩

end ConditionalAssignmentSpec

namespace Transfer

variable {c : Transfer} {a : Assignment} {e e' : Event}

theorem read_source (h : c.Builds a) (e : Event) :
    Event.read c.source e = a.source.get? e := by
  unfold Event.read
  rw [h.source]
  rfl

/-- A copy runs as the assignment that it is built to. -/
theorem run_of_builds (h : c.Builds a) (e : Event) : c.run e = a.run e := by
  rcases hread : a.source.get? e with _ | v
  · simp only [run, Assignment.run, read_source h, hread]
  · simp only [run, Assignment.run, read_source h, hread, h.target]

theorem runAll_of_builds {copies : List Transfer} {assignments : List Assignment}
    (h : List.Forall₂ Builds copies assignments) (e : Event) :
    runAll copies e = Assignment.runAll assignments e := by
  induction h generalizing e with
  | nil => rfl
  | @cons _ a _ _ h _ ih =>
    simp only [runAll, Assignment.runAll, run_of_builds h]
    rcases a.run e with ⟨⟨⟩, s⟩ | ⟨err, s⟩
    · exact ih s
    · rfl

theorem get?_run_of_ne (h : c.Builds a) {name : String} {f : ScalarField Schema.event.fields}
    (hname : Schema.event.field name = .ok (.scalar f)) (hne : name ≠ c.target)
    (hrun : a.run e = .ok () e') : f.get? e' = f.get? e := by
  obtain ⟨-, rfl⟩ | ⟨_, w, -, -, rfl⟩ := Assignment.run_eq_ok hrun
  · rfl
  · exact congrArg (Option.map (Value.of f.kind)) (Path.get_set_of_ne (by simp) (some w) f.path
      a.target.path (MessageType.path_ne hname h.target hne) e)

/-- A copy changes what its target reads, and nothing else that is read. -/
theorem read_run (h : c.Builds a) (hrun : a.run e = .ok () e') (name : String) :
    Event.read name e' =
      if c.target = name then (Event.read c.source e).or (Event.read name e)
      else Event.read name e := by
  split_ifs with htarget
  · subst htarget
    rw [read_source h]
    unfold Event.read
    rw [h.target]
    obtain ⟨hnone, rfl⟩ | ⟨v, w, hv, hw, rfl⟩ := Assignment.run_eq_ok hrun
    · rw [hnone]
      rfl
    · obtain ⟨w', hw', hsame⟩ := ScalarField.as?_of_get? h.kind hv
      obtain rfl := Option.some.inj (hw'.symm.trans hw)
      rw [hv, Option.some_or, ← hsame]
      exact congrArg (Option.map (Value.of a.target.kind)) (a.target.path.get_set (some w') e)
  · unfold Event.read
    rcases hname : Schema.event.field name with err | f | f
    · rfl
    · exact get?_run_of_ne h hname (Ne.symm htarget) hrun
    · rfl

theorem list_get_run (hrun : a.run e = .ok () e') {t : FieldType}
    (q : Path Schema.event.fields (.list t)) : q.get e' = q.get e := by
  obtain ⟨-, rfl⟩ | ⟨_, w, -, -, rfl⟩ := Assignment.run_eq_ok hrun
  · rfl
  · exact Path.get_set_of_ne (by simp) (some w) q a.target.path (by simp) e

theorem list_get_runAll {t : FieldType} (q : Path Schema.event.fields (.list t)) :
    ∀ {assignments : List Assignment} {e e' : Event},
      Assignment.runAll assignments e = .ok () e' → q.get e' = q.get e
  | [], _, _, hrun => by
    cases hrun
    rfl
  | _ :: _, _, _, hrun => by
    obtain ⟨s, hs, hrest⟩ := Assignment.runAll_cons hrun
    exact (list_get_runAll q hrest).trans (list_get_run hs q)

section Reads

variable {rest : List Transfer} {name : String} {v : Value}

theorem reads_zero :
    Reads (c :: rest) e 0 name v ↔ c.target = name ∧ Event.read c.source e = some v := by
  constructor
  · rintro ⟨d, s, hd, htarget, hrun, hread⟩
    cases hd
    cases hrun
    exact ⟨htarget, hread⟩
  · rintro ⟨htarget, hread⟩
    exact ⟨c, e, rfl, htarget, rfl, hread⟩

theorem reads_succ (h : c.Builds a) (hrun : a.run e = .ok () e') {place : Nat} :
    Reads (c :: rest) e (place + 1) name v ↔ Reads rest e' place name v := by
  unfold Reads
  simp only [List.getElem?_cons_succ, List.take_succ_cons, runAll, run_of_builds h, hrun]

end Reads

/-- A scalar ends with what the last copy to it that read something has read, and if none has, as
it was. -/
theorem read_runAll : ∀ {copies : List Transfer} {assignments : List Assignment},
    List.Forall₂ Builds copies assignments → ∀ {e e' : Event},
      Assignment.runAll assignments e = .ok () e' → ∀ name : String,
      (∀ place v, Reads copies e place name v →
        (∀ later w, place < later → ¬ Reads copies e later name w) →
        Event.read name e' = some v) ∧
      ((∀ place v, ¬ Reads copies e place name v) → Event.read name e' = Event.read name e)
  | _, _, .nil, _, _, hrun, name => by
    cases hrun
    refine ⟨fun place v hreads => ?_, fun _ => rfl⟩
    obtain ⟨c, s, hc, -⟩ := hreads
    cases hc
  | _, _, @List.Forall₂.cons _ _ _ c a rest assignments h hrest, e, e', hrun, name => by
    obtain ⟨s, hs, hafter⟩ := Assignment.runAll_cons hrun
    obtain ⟨hlast, hnone⟩ := read_runAll hrest hafter name
    refine ⟨fun place v hreads hlater => ?_, fun hnever => ?_⟩
    · rcases place with _ | place
      · obtain ⟨htarget, hread⟩ := reads_zero.1 hreads
        rw [hnone fun later w hw => hlater (later + 1) w (by omega) ((reads_succ h hs).2 hw),
          read_run h hs, if_pos htarget, hread]
        rfl
      · exact hlast place v ((reads_succ h hs).1 hreads) fun later w hlt hw =>
          hlater (later + 1) w (by omega) ((reads_succ h hs).2 hw)
    · rw [hnone fun place v hv => hnever (place + 1) v ((reads_succ h hs).2 hv), read_run h hs]
      split_ifs with htarget
      · rcases hread : Event.read c.source e with _ | v
        · rfl
        · exact (hnever 0 v (reads_zero.2 ⟨htarget, hread⟩)).elim
      · rfl

/-- Copies to different targets, none of which is a source. -/
structure Apart (copies : List Transfer) : Prop where
  targets : (copies.map target).Nodup
  sources : ∀ c ∈ copies, ∀ d ∈ copies, c.source ≠ d.target

theorem Apart.perm {copies copies' : List Transfer} (h : Apart copies)
    (hperm : copies.Perm copies') : Apart copies' where
  targets := (hperm.map target).nodup_iff.1 h.targets
  sources c hc d hd := h.sources c (hperm.mem_iff.2 hc) d (hperm.mem_iff.2 hd)

theorem Apart.tail {copies : List Transfer} (h : Apart (c :: copies)) : Apart copies where
  targets := (List.nodup_cons.1 h.targets).2
  sources d hd d' hd' := h.sources d (List.mem_cons_of_mem c hd) d' (List.mem_cons_of_mem c hd')

/-- Two copies that leave the source and the target of each other alone end with the same event in
either order. -/
theorem run_comm {d : Transfer} {b : Assignment} (hc : c.Builds a) (hd : d.Builds b)
    (htargets : c.target ≠ d.target) (hcd : c.source ≠ d.target) (hdc : d.source ≠ c.target)
    (e : Event) : ∃ s t u, a.run e = .ok () s ∧ b.run s = .ok () u ∧
      b.run e = .ok () t ∧ a.run t = .ok () u := by
  obtain ⟨s, hs⟩ := Assignment.exists_run hc.kind e
  obtain ⟨t, ht⟩ := Assignment.exists_run hd.kind e
  have ha : a.source.get? t = a.source.get? e := get?_run_of_ne hd hc.source hcd ht
  have hb : b.source.get? s = b.source.get? e := get?_run_of_ne hc hd.source hdc hs
  obtain ⟨hnone, rfl⟩ | ⟨v, w, hv, hw, rfl⟩ := Assignment.run_eq_ok hs
  · exact ⟨s, t, t, hs, ht, ht, Assignment.run_of_none (ha.trans hnone)⟩
  obtain ⟨hnone, rfl⟩ | ⟨v', w', hv', hw', rfl⟩ := Assignment.run_eq_ok ht
  · exact ⟨_, t, _, hs, Assignment.run_of_none (hb.trans hnone), ht, hs⟩
  refine ⟨_, _, _, hs, Assignment.run_of_stored (hb.trans hv') hw', ht, ?_⟩
  rw [Assignment.run_of_stored (ha.trans hv) hw]
  exact congrArg (EStateM.Result.ok ()) (Path.set_comm (some w) (some w') a.target.path
    b.target.path (MessageType.path_ne hc.target hd.target htargets) e)

theorem exists_of_builds : ∀ {copies : List Transfer} {assignments : List Assignment},
    List.Forall₂ Builds copies assignments → ∀ c ∈ copies, ∃ a, c.Builds a
  | _, _, .nil => List.forall_mem_nil _
  | _, _, .cons h hrest => List.forall_mem_cons.2 ⟨⟨_, h⟩, exists_of_builds hrest⟩

theorem runAll_perm {copies copies' : List Transfer} (hperm : copies.Perm copies')
    (hbuilt : ∀ c ∈ copies, ∃ a, c.Builds a) (h : Apart copies) (e : Event) :
    runAll copies e = runAll copies' e := by
  induction hperm generalizing e with
  | nil => rfl
  | cons c _ ih =>
    obtain ⟨a, ha⟩ := hbuilt c List.mem_cons_self
    obtain ⟨s, hs⟩ := Assignment.exists_run ha.kind e
    simp only [runAll, run_of_builds ha, hs]
    exact ih (fun d hd => hbuilt d (List.mem_cons_of_mem c hd)) h.tail s
  | swap c d rest =>
    obtain ⟨b, hb⟩ := hbuilt d List.mem_cons_self
    obtain ⟨a, ha⟩ := hbuilt c (List.mem_cons_of_mem d List.mem_cons_self)
    have htargets : d.target ≠ c.target := fun heq =>
      (List.nodup_cons.1 h.targets).1 (heq ▸ List.mem_cons_self)
    have hdc := h.sources d List.mem_cons_self c (List.mem_cons_of_mem d List.mem_cons_self)
    have hcd := h.sources c (List.mem_cons_of_mem d List.mem_cons_self) d List.mem_cons_self
    obtain ⟨s, t, u, hs, hsu, ht, htu⟩ := run_comm hb ha htargets hdc hcd e
    simp only [runAll, run_of_builds ha, run_of_builds hb, hs, hsu, ht, htu]
  | trans hfirst _ ih ih' =>
    rw [ih hbuilt h]
    exact ih' (fun c hc => hbuilt c (hfirst.mem_iff.2 hc)) (h.perm hfirst) e

/-- What copies make of an event. -/
structure Outcome (copies : List Transfer) (e e' : Event) : Prop where
  runs : runAll copies e = .ok () e'
  others : ∀ name, (∀ c ∈ copies, c.target ≠ name) → Event.read name e' = Event.read name e
  lists : ∀ t (q : Path Schema.event.fields (.list t)), q.get e' = q.get e
  last : ∀ name place v, Reads copies e place name v →
    (∀ later w, place < later → ¬ Reads copies e later name w) → Event.read name e' = some v
  kept : ∀ name, (∀ place v, ¬ Reads copies e place name v) →
    Event.read name e' = Event.read name e

theorem outcome_of_builds {copies : List Transfer} {assignments : List Assignment}
    (h : List.Forall₂ Builds copies assignments)
    (hrun : Assignment.runAll assignments e = .ok () e') : Outcome copies e e' where
  runs := (runAll_of_builds h e).trans hrun
  others name hname := (read_runAll h hrun name).2 fun _ _ ⟨_, _, hc, htarget, _⟩ =>
    hname _ (List.mem_of_getElem? hc) htarget
  lists _ q := list_get_runAll q hrun
  last name := (read_runAll h hrun name).1
  kept name := (read_runAll h hrun name).2

end Transfer

namespace ConditionalAssignmentSpec

variable {s : ConditionalAssignmentSpec} {built : ConditionalAssignment}

theorem exists_build_perm (h : s.build = .ok built) {copies copies' : List Transfer}
    (hwritten : s.assignments = copies.map Transfer.spec)
    (hcopies : List.Forall₂ Transfer.Builds copies built.assignments)
    (hapart : Transfer.Apart copies) (hperm : copies'.Perm copies) :
    ∃ built', { s with assignments := copies'.map Transfer.spec }.build = .ok built' ∧
      ∀ e, built'.update e = built.update e := by
  obtain ⟨condition, hcondition, hfilter, hne, -⟩ := build_eq_ok.1 h
  obtain ⟨assignments, hassignments, -⟩ := List.perm_comp_forall₂ hperm hcopies
  have hne' : copies'.map Transfer.spec ≠ [] := by
    rw [hwritten] at hne
    exact fun hnil => hne (List.nil_perm.1 (hnil ▸ hperm.map Transfer.spec))
  refine ⟨⟨built.condition, assignments⟩, build_eq_ok.2 ⟨condition, hcondition, hfilter, hne',
    copies', rfl, hassignments⟩, fun e => ?_⟩
  have hruns := Transfer.runAll_perm hperm (Transfer.exists_of_builds hassignments)
    (hapart.perm hperm.symm) e
  rw [Transfer.runAll_of_builds hassignments, Transfer.runAll_of_builds hcopies] at hruns
  unfold ConditionalAssignment.update
  simp only [hruns]

/-- A conditional assignment that is built does not fail. It leaves an event alone that its
condition does not hold of; of others it changes only the targets, each of which ends with what the
last copy to it that read something has read. Copies that are apart may be written in any order. -/
theorem assigns (h : s.build = .ok built) :
    ∃ copies : List Transfer, s.assignments = copies.map Transfer.spec ∧
      (∀ e, ∃ e', (Update.assignment built).apply e = .ok () e' ∧
        (¬ built.condition.holds e → e' = e) ∧
        (built.condition.holds e → Transfer.Outcome copies e e')) ∧
      (Transfer.Apart copies → ∀ copies' : List Transfer, copies'.Perm copies →
        ∃ built', { s with assignments := copies'.map Transfer.spec }.build = .ok built' ∧
          ∀ e, (Update.assignment built').apply e = (Update.assignment built).apply e) := by
  obtain ⟨condition, -, -, -, copies, hwritten, hbuilds⟩ := build_eq_ok.1 h
  refine ⟨copies, hwritten, fun e => ?_, fun hapart copies' hperm => ?_⟩
  · obtain ⟨e', he'⟩ := built.exists_update (kinds_of_build h) e
    refine ⟨e', he', fun hfalse => ?_, fun htrue => ?_⟩
    · rw [built.update_of_not_holds hfalse] at he'
      cases he'
      rfl
    · exact Transfer.outcome_of_builds hbuilds ((built.update_of_holds htrue).symm.trans he')
  · exact exists_build_perm h hwritten hbuilds hapart hperm

/-- Two assignments that always run, the second to a message that may have to be created. -/
def stamping : ConditionalAssignmentSpec :=
  ⟨some ⟨.always, none, none, []⟩,
    [⟨some "person_country_code", some "person_region_code"⟩,
      ⟨some "acting_fingerprint", some "labeler_input.event_id.id_fingerprint"⟩]⟩

/-- An event from Germany. -/
def german : Event :=
  (some 7, some "DE", none, none, none, none, none, none, none, none, [], ())

theorem assigns_stamping :
    ∃ built e', stamping.build = .ok built ∧ (Update.assignment built).apply german = .ok () e' ∧
      Event.read "person_region_code" e' = some (.string "DE") ∧
      Event.read "labeler_input.event_id.id_fingerprint" e' = some (.uint64 7) ∧
      ∃ built', { stamping with assignments := stamping.assignments.reverse }.build = .ok built' ∧
        (Update.assignment built').apply german = .ok () e' := by
  obtain ⟨built, hbuilt, halways⟩ :
      ∃ built, stamping.build = .ok built ∧ built.condition.holds german := ⟨_, rfl, rfl⟩
  obtain ⟨copies, hcopies, hruns, horder⟩ := assigns hbuilt
  obtain rfl : copies = [⟨"person_country_code", "person_region_code"⟩,
      ⟨"acting_fingerprint", "labeler_input.event_id.id_fingerprint"⟩] :=
    List.map_injective_iff.2 Transfer.spec_injective hcopies.symm
  obtain ⟨e', happly, -, hholds⟩ := hruns german
  have houtcome := hholds halways
  refine ⟨built, e', hbuilt, happly, ?_, ?_, ?_⟩
  · refine houtcome.last _ 0 _ ⟨_, german, rfl, rfl, rfl, rfl⟩ fun later w hlater => ?_
    rintro ⟨c, s, hc, htarget, -⟩
    rcases later with _ | _ | later
    · exact absurd hlater (Nat.lt_irrefl 0)
    · cases hc
      exact absurd htarget (by decide)
    · cases hc
  · refine houtcome.last _ 1 _ ⟨_, _, rfl, rfl, rfl, rfl⟩ fun later w hlater => ?_
    rintro ⟨c, s, hc, -⟩
    rcases later with _ | _ | later
    · exact absurd hlater (by decide)
    · exact absurd hlater (Nat.lt_irrefl 1)
    · cases hc
  · obtain ⟨built', hbuilt', hsame⟩ := horder ⟨by decide, by decide⟩ _ (List.Perm.swap _ _ [])
    exact ⟨built', hbuilt', (hsame german).trans happly⟩

end ConditionalAssignmentSpec

end VirtualPeople
