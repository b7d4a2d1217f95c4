import VirtualPeople.Proofs.Model.Asking
import VirtualPeople.Proofs.Model.ListedTree

/-!
# Resolving, step by step

Resolving an index is a machine: the dialogue of the node that is being built, over a stack of the
nodes that are waiting for it. The machine ends where resolving does (`Moment.leads_answered`). At
every moment before that a listed node is pending, being built or attached, unless it was lost in a
failure, and never two of these (`Moment.Holds`). The nodes that are being built are those on the
stack, so a reference closes a cycle just when it leads to one of them.
-/

namespace VirtualPeople

/-- A moment of resolving: the arena, the indexes of the nodes attached so far, the dialogue of the
node that is being built, and the indexes of all nodes that are being built, the innermost first,
each with what is made of its node by the dialogue that asked for it. -/
structure Moment where
  arena : Arena
  attached : List UInt32
  asks : Asks Node
  callers : List (UInt32 × (Node → Asks Node))

namespace Moment

/-- The indexes of the nodes that are being built, the innermost first. -/
def chain (m : Moment) : List UInt32 := m.callers.map (·.1)

/-- The index of a node is asked for. -/
def AsksFor (m : Moment) (i : UInt32) : Prop := ∃ next, m.asks = .ask i next

/-- An error has occurred. -/
def Failed (m : Moment) : Prop := ∃ err, m.asks = .settled (.error err)

/-- An index is to be resolved. -/
def start (a : Arena) (index : UInt32) : Moment := ⟨a, [], .ask index pure, []⟩

/-- What becomes of a reference: the dialogue goes on with the node it is resolved to, or fails as
resolving does. -/
def answered (attached : List UInt32) (next : Node → Asks Node)
    (callers : List (UInt32 × (Node → Asks Node))) : EStateM.Result Error Arena Node → Moment
  | .ok node a => ⟨a, attached, next node, callers⟩
  | .error err a => ⟨a, attached, .settled (.error err), callers⟩

/-- A reference is refused, or its node is taken out of the arena and built. A node that is built is
attached, and one that is not is dropped. -/
inductive Step : Moment → Moment → Prop
  | refused {a : Arena} {attached i next callers err} :
      Arena.take i a = .error err a →
      Step ⟨a, attached, .ask i next, callers⟩ ⟨a, attached, .settled (.error err), callers⟩
  | taken {a b : Arena} {attached i next callers n} :
      Arena.take i a = .ok n b →
      Step ⟨a, attached, .ask i next, callers⟩ ⟨b, attached, n.asking, (i, next) :: callers⟩
  | attached {a : Arena} {attached i next callers node} :
      Step ⟨a, attached, .settled (.ok node), (i, next) :: callers⟩
        ⟨a.done i, i :: attached, next node, callers⟩
  | dropped {a : Arena} {attached i next callers err} :
      Step ⟨a, attached, .settled (.error err), (i, next) :: callers⟩
        ⟨a.done i, attached, .settled (.error err), callers⟩

/-- Steps lead from a moment to another. -/
abbrev Leads : Moment → Moment → Prop := Relation.ReflTransGen Step

end Moment

namespace Arena

variable {nodes : List NodeSpec} {a b c : Arena} {i : UInt32} {n : NodeSpec} {err : Error}

theorem take_eq_error :
    take i a = .error err c ↔ c = a ∧
      (i ∈ a.building ∧ err = .invalidModel (.cycle i) ∨
        i ∉ a.building ∧ i ∉ a.keys ∧ err = .invalidModel (.nodeMissing i)) := by
  have hkeys : a.pending.lookup i = none ↔ i ∉ a.keys := by
    rw [List.lookup_eq_none_iff, keys, List.mem_map]
    simp only [bne_iff_ne, not_exists, not_and, ne_comm, ne_eq]
  unfold take
  by_cases hb : i ∈ a.building
  · simp [hb, eq_comm, and_comm]
  · rcases hl : a.pending.lookup i with _ | m
    · simp [hb, hkeys.1 hl, eq_comm, and_comm]
    · have hi : i ∈ a.keys := by
        by_contra hi
        rw [hkeys.2 hi] at hl
        cases hl
      simp [hb, hi]

theorem take_cycle_iff :
    take i a = .error (.invalidModel (.cycle i)) a ↔ i ∈ a.building := by
  simp [take_eq_error]

theorem take_nodeMissing_iff :
    take i a = .error (.invalidModel (.nodeMissing i)) a ↔ i ∉ a.building ∧ i ∉ a.keys := by
  simp [take_eq_error]

theorem pending_lt_of_take (h : take i a = .ok n b) : b.pending.length < a.pending.length := by
  obtain ⟨-, hl, rfl⟩ := take_eq_ok.1 h
  obtain ⟨l₁, l₂, heq, -⟩ := List.lookup_eq_some_iff.1 hl
  refine List.length_filter_lt_length_iff_exists.2 ⟨(i, n), ?_, by simp⟩
  rw [heq]
  exact List.mem_append_right l₁ List.mem_cons_self

theorem resolveTo_of_refused (h : take i a = .error err c) :
    ∀ bound, resolveTo bound i a = .error err c
  | 0 => by simp only [resolveTo, h]
  | bound + 1 => by simp only [resolveTo, h]

end Arena

namespace Moment

variable {nodes : List NodeSpec} {index : UInt32} {m m' : Moment}

theorem Step.pending_le (h : Step m m') : m'.arena.pending.length ≤ m.arena.pending.length := by
  cases h with
  | refused _ => exact Nat.le_refl _
  | taken ht => exact Nat.le_of_lt (Arena.pending_lt_of_take ht)
  | attached => exact Nat.le_refl _
  | dropped => exact Nat.le_refl _

theorem Leads.pending_le (h : Leads m m') :
    m'.arena.pending.length ≤ m.arena.pending.length := by
  induction h with
  | refl => exact Nat.le_refl _
  | tail _ hstep ih => exact Nat.le_trans hstep.pending_le ih

/-- If references are answered as they are resolved, a dialogue comes to what it comes to with one
who resolves them. -/
theorem leads_run {resolve : UInt32 → Build Node} {bound : Nat}
    (hask : ∀ {a : Arena} (attached i next callers), a.pending.length ≤ bound →
      ∃ attached', Leads ⟨a, attached, .ask i next, callers⟩
        (answered attached' next callers (resolve i a)))
    (p : Asks Node) (callers : List (UInt32 × (Node → Asks Node))) {a : Arena}
    (attached : List UInt32) (hl : a.pending.length ≤ bound) :
    ∃ attached', Leads ⟨a, attached, p, callers⟩
      (answered attached' pure callers (p.run resolve a)) := by
  induction p generalizing a attached with
  | settled r =>
    refine ⟨attached, ?_⟩
    rcases r with err | node <;> exact .refl
  | ask i next ih =>
    obtain ⟨attached₁, hi⟩ := hask attached i next callers hl
    rcases hr : resolve i a with ⟨node, c⟩ | ⟨err, c⟩
    · rw [hr] at hi
      -- an answer only takes nodes out, so the bound allows for the rest of the dialogue too
      obtain ⟨attached₂, hnext⟩ := ih node attached₁ (Nat.le_trans hi.pending_le hl)
      refine ⟨attached₂, ?_⟩
      have hrun : (Asks.ask i next).run resolve a = (next node).run resolve c := by
        simp only [Asks.run, bind, EStateM.bind, hr]
      rw [hrun]
      exact hi.trans hnext
    · rw [hr] at hi
      have hrun : (Asks.ask i next).run resolve a = .error err c := by
        simp only [Asks.run, bind, EStateM.bind, hr]
      refine ⟨attached₁, ?_⟩
      rw [hrun]
      exact hi

theorem step_refused {a c : Arena} {attached : List UInt32} {i : UInt32} {next : Node → Asks Node}
    {callers : List (UInt32 × (Node → Asks Node))} {err : Error}
    (h : Arena.take i a = .error err c) (bound : Nat) :
    Step ⟨a, attached, .ask i next, callers⟩
      (answered attached next callers (Arena.resolveTo bound i a)) := by
  obtain ⟨rfl, -⟩ := Arena.take_eq_error.1 h
  rw [Arena.resolveTo_of_refused h]
  exact .refused h

/-- A reference is answered as it is resolved, where the bound on resolving allows for all that is
pending. -/
theorem leads_answered (bound : Nat) {a : Arena} (attached : List UInt32) (i : UInt32)
    (next : Node → Asks Node) (callers : List (UInt32 × (Node → Asks Node)))
    (hl : a.pending.length ≤ bound) :
    ∃ attached', Leads ⟨a, attached, .ask i next, callers⟩
      (answered attached' next callers (Arena.resolveTo bound i a)) := by
  induction bound generalizing a attached i next callers with
  | zero =>
    rcases ht : Arena.take i a with ⟨n, b⟩ | ⟨err, c⟩
    · have hlt := Arena.pending_lt_of_take ht
      omega
    · exact ⟨attached, .single (step_refused ht 0)⟩
  | succ bound ih =>
    rcases ht : Arena.take i a with ⟨n, b⟩ | ⟨err, c⟩
    · have hlt := Arena.pending_lt_of_take ht
      have hle : b.pending.length ≤ bound := by omega
      obtain ⟨attached', hrun⟩ := leads_run ih n.asking ((i, next) :: callers) attached hle
      rw [← NodeSpec.build_eq_run] at hrun
      rcases hb : n.build (Arena.resolveTo bound) b with ⟨node, c⟩ | ⟨err, c⟩
      · rw [hb] at hrun
        refine ⟨i :: attached', ?_⟩
        simp only [Arena.resolveTo, ht, hb]
        exact .head (.taken ht) (hrun.tail .attached)
      · rw [hb] at hrun
        refine ⟨attached', ?_⟩
        simp only [Arena.resolveTo, ht, hb]
        exact .head (.taken ht) (hrun.tail .dropped)
    · exact ⟨attached, .single (step_refused ht (bound + 1))⟩

/-- A moment has one next moment at most. -/
theorem Step.unique : Relator.RightUnique Step := by
  intro m m₁ m₂ h₁ h₂
  cases h₁ with
  | refused ht =>
    cases h₂ with
    | refused ht' =>
      rw [ht] at ht'
      cases ht'
      rfl
    | taken ht' =>
      rw [ht] at ht'
      cases ht'
  | taken ht =>
    cases h₂ with
    | refused ht' =>
      rw [ht] at ht'
      cases ht'
    | taken ht' =>
      rw [ht] at ht'
      cases ht'
      rfl
  | attached => cases h₂; rfl
  | dropped => cases h₂; rfl

/-- What comes to an end by some steps has no endless ones. -/
theorem acc_of_leads {m last : Moment} (hfinal : ∀ m', ¬ Step last m') (h : Leads m last) :
    Acc (Function.swap Step) m := by
  induction h using Relation.ReflTransGen.head_induction_on with
  | refl => exact .intro last fun m' hstep => (hfinal m' hstep).elim
  | head hstep _ ih =>
    refine .intro _ fun m' hstep' => ?_
    rwa [Step.unique hstep' hstep]

theorem leads_final {m₀ m last : Moment} (hfinal : ∀ m', ¬ Step last m') (hm : Leads m₀ m)
    (hlast : Leads m₀ last) : Leads m last := by
  rcases Relation.ReflTransGen.total_of_right_unique Step.unique hm hlast with h | h
  · exact h
  · rcases h.cases_head with rfl | ⟨m', hstep, -⟩
    · exact .refl
    · exact (hfinal m' hstep).elim

theorem final_answered (attached : List UInt32) (r : EStateM.Result Error Arena Node) (m : Moment) :
    ¬ Step (answered attached pure [] r) m := by
  rcases r with ⟨node, c⟩ | ⟨err, c⟩ <;> intro h <;> cases h

/-! ## What holds at every moment -/

/-- All that an index can be: pending, being built or attached. -/
def places (m : Moment) : List UInt32 := m.arena.keys ++ (m.chain ++ m.attached)

end Moment

/-- What is referred to where nodes are being built: the references of the innermost of them or, if
there is none, the index that is to be resolved. -/
def referring (nodes : List NodeSpec) (index : UInt32) : List UInt32 → List UInt32
  | [] => [index]
  | i :: _ => referencesOf nodes i

/-- References lead from an index to the nodes that are being built. -/
def OnPath (nodes : List NodeSpec) (index : UInt32) : List UInt32 → Prop
  | [] => True
  | i :: outer => i ∈ referring nodes index outer ∧ OnPath nodes index outer

namespace Moment

/-- What is made of a node by a caller asks for what the caller refers to. -/
def Linked (nodes : List NodeSpec) (index : UInt32) : List (UInt32 × (Node → Asks Node)) → Prop
  | [] => True
  | (i, next) :: outer =>
    (Asks.ask i next).Proper (referring nodes index (outer.map (·.1))) ∧ Linked nodes index outer

/-- Of the listed nodes, those not lost in a failure are in one place each, and what is asked for
is referred to. -/
structure Holds (nodes : List NodeSpec) (index : UInt32) (m : Moment) : Prop where
  lists : m.arena.Lists nodes
  building : m.arena.building = m.chain
  within : m.places.Subperm (listedIndexes nodes)
  together : m.Failed ∨ m.places.Perm (listedIndexes nodes)
  linked : Linked nodes index m.callers
  proper : m.Failed ∨ m.asks.Proper (referring nodes index m.chain)

variable {nodes : List NodeSpec} {index : UInt32} {m m' : Moment}

theorem holds_start (hd : (listedIndexes nodes).Nodup) (index : UInt32) :
    (start (Arena.ofList nodes) index).Holds nodes index := by
  have hplaces : (start (Arena.ofList nodes) index).places.Perm (listedIndexes nodes) := by
    simpa [places, start, chain] using Arena.keys_ofList nodes
  exact ⟨Arena.lists_ofList hd, rfl, hplaces.subperm, .inr hplaces, trivial,
    .inr ⟨List.mem_singleton_self index, fun node => .pure node⟩⟩

/-- A step keeps all listed nodes in their one place, but for those lost in a failure. -/
theorem Step.places_subperm (hlists : m.arena.Lists nodes) (h : Step m m') :
    m'.places.Subperm m.places ∧ (m'.Failed ∨ m'.places.Perm m.places) := by
  cases h with
  | @refused a attached i next callers err _ =>
    exact ⟨.refl _, .inl ⟨err, rfl⟩⟩
  | @taken a b attached i next callers n ht =>
    obtain ⟨-, hkeys, -, -⟩ := hlists.of_take ht
    have hperm : (b.keys ++ (i :: (callers.map (·.1) ++ attached))).Perm
        (a.keys ++ (callers.map (·.1) ++ attached)) :=
      List.perm_middle.trans (hkeys.symm.append_right _)
    exact ⟨hperm.subperm, .inr hperm⟩
  | @attached a attached i next callers node =>
    have hperm : (a.keys ++ (callers.map (·.1) ++ i :: attached)).Perm
        (a.keys ++ (i :: callers.map (·.1) ++ attached)) :=
      List.perm_middle.append_left _
    exact ⟨hperm.subperm, .inr hperm⟩
  | @dropped a attached i next callers err =>
    have hsub : (a.keys ++ (callers.map (·.1) ++ attached)).Sublist
        (a.keys ++ (i :: (callers.map (·.1) ++ attached))) :=
      (List.sublist_cons_self i _).append_left _
    exact ⟨hsub.subperm, .inl ⟨err, rfl⟩⟩

/-- An error is not recovered from. -/
theorem Step.error {err : Error} (h : Step m m') (hm : m.asks = .settled (.error err)) :
    m'.asks = .settled (.error err) := by
  cases h with
  | refused _ => cases hm
  | taken _ => cases hm
  | attached => cases hm
  | dropped => exact hm

theorem Leads.error {err : Error} (h : Leads m m') (hm : m.asks = .settled (.error err)) :
    m'.asks = .settled (.error err) := by
  induction h with
  | refl => exact hm
  | tail _ hstep ih => exact hstep.error ih

theorem Step.together (hm : m.Holds nodes index) (h : Step m m') :
    m'.Failed ∨ m'.places.Perm (listedIndexes nodes) := by
  rcases (h.places_subperm hm.lists).2 with hf | hperm
  · exact .inl hf
  · exact hm.together.imp (fun ⟨err, herr⟩ => ⟨err, h.error herr⟩) hperm.trans

theorem Step.holds (hm : m.Holds nodes index) (h : Step m m') : m'.Holds nodes index := by
  have hwithin := (h.places_subperm hm.lists).1.trans hm.within
  have htogether := h.together hm
  obtain ⟨hlists, hbuilding, -, -, hlinked, hproper⟩ := hm
  cases h with
  | @refused a attached i next callers err _ =>
    exact ⟨hlists, hbuilding, hwithin, htogether, hlinked, .inl ⟨err, rfl⟩⟩
  | @taken a b attached i next callers n ht =>
    obtain ⟨hn, -, hb, hbuilding'⟩ := hlists.of_take ht
    have hasks : (Asks.ask i next).Proper (referring nodes index (callers.map (·.1))) :=
      hproper.resolve_left nofun
    refine ⟨hb, by rw [hbuilding', hbuilding]; rfl, hwithin, htogether, ⟨hasks, hlinked⟩, .inr ?_⟩
    have hrefs : referring nodes index (i :: callers.map (·.1)) = n.references := by
      rw [referring, referencesOf, hn]
    exact hrefs ▸ n.asking_proper
  | @attached a attached i next callers node =>
    have hb : a.building = i :: (⟨a.pending, callers.map (·.1)⟩ : Arena).building := hbuilding
    obtain ⟨hd, hdb, -⟩ := hlists.done hb
    exact ⟨hd, hdb, hwithin, htogether, hlinked.2, .inr (hlinked.1.2 node)⟩
  | @dropped a attached i next callers err =>
    have hb : a.building = i :: (⟨a.pending, callers.map (·.1)⟩ : Arena).building := hbuilding
    obtain ⟨hd, hdb, -⟩ := hlists.done hb
    exact ⟨hd, hdb, hwithin, htogether, hlinked.2, .inl ⟨err, rfl⟩⟩

theorem Leads.holds (hm : m.Holds nodes index) (h : Leads m m') : m'.Holds nodes index := by
  induction h with
  | refl => exact hm
  | tail _ hstep ih => exact hstep.holds ih

theorem onPath_of_linked :
    ∀ {callers : List (UInt32 × (Node → Asks Node))}, Linked nodes index callers →
      OnPath nodes index (callers.map (·.1))
  | [], _ => trivial
  | _ :: _, h => ⟨h.1.1, onPath_of_linked h.2⟩

/-- A listed node is in one place, or lost in a failure; those being built are on the path from the
resolved index; and a reference is refused for a cycle or for a missing node by where it leads. -/
structure Sound (nodes : List NodeSpec) (index : UInt32) (m : Moment) : Prop where
  building : m.arena.building = m.chain
  path : OnPath nodes index m.chain
  apart : m.places.Nodup
  listed : ∀ i ∈ m.places, i ∈ listedIndexes nodes
  together : ¬ m.Failed → ∀ i ∈ listedIndexes nodes, i ∈ m.places
  referred : ∀ i, m.AsksFor i → i ∈ referring nodes index m.chain
  cycle : ∀ i, m.AsksFor i →
    (Arena.take i m.arena = .error (.invalidModel (.cycle i)) m.arena ↔ i ∈ m.chain)
  missing : ∀ i, m.AsksFor i →
    (Arena.take i m.arena = .error (.invalidModel (.nodeMissing i)) m.arena ↔
      i ∉ listedIndexes nodes ∨ i ∈ m.attached)

theorem not_failed {i : UInt32} (h : m.AsksFor i) : ¬ m.Failed := by
  rintro ⟨err, herr⟩
  obtain ⟨next, hask⟩ := h
  rw [hask] at herr
  cases herr

theorem Holds.sound (hd : (listedIndexes nodes).Nodup) (hm : m.Holds nodes index) :
    m.Sound nodes index := by
  obtain ⟨l, hperm, hsub⟩ := hm.within
  have hnodup : m.places.Nodup := hperm.nodup_iff.1 (hd.sublist hsub)
  have hlisted : ∀ i ∈ m.places, i ∈ listedIndexes nodes := fun i hi => hm.within.subset hi
  have htogether (h : ¬ m.Failed) : ∀ i ∈ listedIndexes nodes, i ∈ m.places := fun i hi =>
    (hm.together.resolve_left h).mem_iff.2 hi
  refine ⟨hm.building, onPath_of_linked hm.linked, hnodup, hlisted, htogether,
    fun i hi => ?referred, fun i _ => ?cycle, fun i hi => ?missing⟩
  case referred =>
    have hproper := hm.proper.resolve_left (not_failed hi)
    obtain ⟨next, hask⟩ := hi
    rw [hask] at hproper
    exact hproper.1
  case cycle => rw [Arena.take_cycle_iff, hm.building]
  case missing =>
    have hiff : i ∈ listedIndexes nodes ↔ i ∈ m.arena.keys ∨ i ∈ m.chain ∨ i ∈ m.attached := by
      rw [← List.mem_append, ← List.mem_append]
      exact ⟨htogether (not_failed hi) i, hlisted i⟩
    obtain ⟨-, hrest, hkeys⟩ := List.nodup_append'.1 hnodup
    obtain ⟨-, -, hchain⟩ := List.nodup_append'.1 hrest
    have hattached (h : i ∈ m.attached) : i ∉ m.arena.keys ∧ i ∉ m.chain :=
      ⟨fun hk => hkeys hk (List.mem_append_right _ h), fun hc => hchain hc h⟩
    rw [Arena.take_nodeMissing_iff, hm.building, hiff]
    tauto

/-- An error that only a reference is refused for goes back to a reference that was refused. -/
theorem Leads.refused {m₀ : Moment} {fault : ModelFault} (hm₀ : m₀.Holds nodes index)
    (hask : ∀ err, m₀.asks ≠ .settled (.error err)) (h : Leads m₀ m)
    (hm : m.asks = .settled (.error (.invalidModel fault))) (hfault : fault.OfReference) :
    ∃ m' i, Leads m₀ m' ∧ m'.AsksFor i ∧
      Arena.take i m'.arena = .error (.invalidModel fault) m'.arena := by
  have hown {references : List UInt32} {p : Asks Node} (hp : p.Proper references)
      (he : p = .settled (.error (.invalidModel fault))) : False := by
    subst he
    obtain ⟨fault', heq, hnot⟩ := hp _ rfl
    cases heq
    exact hnot hfault
  induction h with
  | refl => exact (hask _ hm).elim
  | tail hlead hstep ih =>
    have hholds := Leads.holds hm₀ hlead
    cases hstep with
    | @refused a attached i next callers err ht =>
      cases hm
      exact ⟨_, i, hlead, ⟨next, rfl⟩, ht⟩
    | taken _ => exact (hown (NodeSpec.asking_proper _) hm).elim
    | @attached a attached i next callers node =>
      exact (hown (hholds.linked.1.2 node) hm).elim
    | dropped => exact ih hm

end Moment

/-! ## Resolving an index -/

namespace Arena

variable {nodes : List NodeSpec} {index i : UInt32} {fault : ModelFault}

/-- Resolving an index comes to a moment. -/
def ComesTo (a : Arena) (index : UInt32) (m : Moment) : Prop := Moment.Leads (.start a index) m

/-- Resolving an index comes to an end, is sound all along, and is refused for a reference just when
a reference that it comes to leads to a node that is being built, or to one that is not listed or
is attached. -/
structure Resolves (nodes : List NodeSpec) (index : UInt32) (a : Arena) (last : Moment) : Prop where
  ends : Acc (Function.swap Moment.Step) (.start a index)
  outcome : ∃ attached, last = .answered attached pure [] (resolve index a)
  final : ∀ m, ¬ Moment.Step last m
  reached : ∀ m, a.ComesTo index m → Moment.Leads m last
  sound : ∀ m, a.ComesTo index m → m.Sound nodes index
  cycle : ∀ i, (∃ b, resolve index a = .error (.invalidModel (.cycle i)) b) ↔
    ∃ m, a.ComesTo index m ∧ m.AsksFor i ∧ i ∈ m.chain
  missing : ∀ i, (∃ b, resolve index a = .error (.invalidModel (.nodeMissing i)) b) ↔
    ∃ m, a.ComesTo index m ∧ m.AsksFor i ∧ (i ∉ listedIndexes nodes ∨ i ∈ m.attached)

/-- Nodes with indexes that differ are all added to an arena that has none of these. -/
theorem forM_insert :
    ∀ {nodes : List NodeSpec} {a : Arena}, (∀ n ∈ nodes, n.index.isSome) →
      (listedIndexes nodes).Nodup → (∀ i ∈ listedIndexes nodes, i ∉ a.keys) →
      nodes.forM insert a = .ok () ⟨(entries nodes).reverse ++ a.pending, a.building⟩
  | [], a, _, _, _ => rfl
  | n :: nodes, a, hset, hd, hfresh => by
    obtain ⟨i, hi⟩ := Option.isSome_iff_exists.1 (hset n List.mem_cons_self)
    rw [listedIndexes_cons hi] at hd hfresh
    obtain ⟨hnot, hd⟩ := List.nodup_cons.1 hd
    have hins := (insert_eq_ok hi).2 ⟨hfresh i List.mem_cons_self, rfl⟩
    have hrest := forM_insert (a := ⟨(i, n) :: a.pending, a.building⟩)
      (fun m hm => hset m (List.mem_cons_of_mem n hm)) hd fun j hj hc => by
        rcases List.mem_cons.1 hc with rfl | hc
        · exact hnot hj
        · exact hfresh j (List.mem_cons_of_mem i hj) hc
    change (insert n >>= fun _ => nodes.forM insert) a = _
    simp only [bind, EStateM.bind, hins, hrest, entries_cons hi, List.reverse_cons,
      List.append_assoc, List.singleton_append]

theorem comesTo_answered (a : Arena) (index : UInt32) :
    ∃ attached, a.ComesTo index (.answered attached pure [] (resolve index a)) :=
  Moment.leads_answered a.pending.length [] index pure [] (Nat.le_refl _)

theorem holds_of_comesTo (hd : (listedIndexes nodes).Nodup) {m : Moment}
    (h : (ofList nodes).ComesTo index m) : m.Holds nodes index :=
  Moment.Leads.holds (Moment.holds_start hd index) h

/-- Resolving is refused for a reference just when it comes to one that is refused. -/
theorem resolve_error_iff (hd : (listedIndexes nodes).Nodup)
    (hfault : fault = .cycle i ∨ fault = .nodeMissing i) :
    (∃ b, resolve index (ofList nodes) = .error (.invalidModel fault) b) ↔
      ∃ m, (ofList nodes).ComesTo index m ∧ m.AsksFor i ∧
        take i m.arena = .error (.invalidModel fault) m.arena := by
  obtain ⟨attached, hlead⟩ := comesTo_answered (ofList nodes) index
  constructor
  · rintro ⟨b, hb⟩
    rw [hb] at hlead
    have hof : fault.OfReference := by rcases hfault with rfl | rfl <;> trivial
    obtain ⟨m, j, hm, hj, ht⟩ :=
      Moment.Leads.refused (Moment.holds_start hd index) (fun _ => nofun) hlead rfl hof
    obtain rfl : j = i := by
      obtain ⟨-, ⟨-, heq⟩ | ⟨-, -, heq⟩⟩ := take_eq_error.1 ht
      all_goals
        cases heq
        rcases hfault with h | h <;> cases h
        rfl
    exact ⟨m, hm, hj, ht⟩
  · rintro ⟨⟨b, attached', asks, callers⟩, hm, ⟨next, rfl⟩, ht⟩
    have hrefused := hm.tail (.refused ht)
    have hlast := Moment.leads_final (Moment.final_answered attached _) hrefused hlead
    have herr := Moment.Leads.error hlast rfl
    rcases hr : resolve index (ofList nodes) with ⟨node, c⟩ | ⟨err, c⟩ <;> rw [hr] at herr
    · cases herr
    · cases herr
      exact ⟨c, rfl⟩

/-- Nodes with indexes that differ fill an arena, and resolving an index from it comes to an end. -/
theorem resolve_run (hset : ∀ n ∈ nodes, n.index.isSome) (hd : (listedIndexes nodes).Nodup)
    (index : UInt32) :
    (∃ a last, nodes.forM insert empty = .ok () a ∧ Resolves nodes index a last) ∧
      ∀ i, (ModelFault.cycle i).message = s!"Cycle detected at node index {i.toNat}" := by
  have ha : nodes.forM insert empty = .ok () (ofList nodes) := by
    rw [forM_insert hset hd fun i _ => List.not_mem_nil]
    simp [ofList, empty]
  obtain ⟨attached, hlead⟩ := comesTo_answered (ofList nodes) index
  have hfinal := Moment.final_answered attached (resolve index (ofList nodes))
  have hsound (m : Moment) (hm : (ofList nodes).ComesTo index m) : m.Sound nodes index :=
    (holds_of_comesTo hd hm).sound hd
  refine ⟨⟨ofList nodes, _, ha, Moment.acc_of_leads hfinal hlead, ⟨attached, rfl⟩, hfinal,
    fun m hm => Moment.leads_final hfinal hm hlead, hsound, fun i => ?cycle, fun i => ?missing⟩,
    fun i => rfl⟩
  case cycle =>
    rw [resolve_error_iff hd (.inl rfl)]
    exact exists_congr fun m => and_congr_right fun hm => and_congr_right fun hi =>
      (hsound m hm).cycle i hi
  case missing =>
    rw [resolve_error_iff hd (.inr rfl)]
    exact exists_congr fun m => and_congr_right fun hm => and_congr_right fun hi =>
      (hsound m hm).missing i hi

/-- The third node refers back to the first. -/
def looped : List NodeSpec :=
  let half (i : UInt32) : EdgeSpec := ⟨none, some i, some 0.5, none⟩
  [⟨none, some 1, none, some ⟨[half 2, half 3], none, none, none⟩, none, none⟩,
    ⟨none, some 2, none, none, none, some ()⟩,
    ⟨none, some 3, none, some ⟨[half 1], none, none, none⟩, none, none⟩]

theorem resolve_run_looped :
    (∀ n ∈ looped, n.index.isSome) ∧ (listedIndexes looped).Nodup ∧
      ∃ a last, looped.forM insert empty = .ok () a ∧ Resolves looped 1 a last ∧
        ∃ b, resolve 1 a = .error (.invalidModel (.cycle 1)) b := by
  have hset : ∀ n ∈ looped, n.index.isSome := by decide
  have hd : (listedIndexes looped).Nodup := by decide
  obtain ⟨⟨a, last, ha, hresolves⟩, -⟩ := resolve_run hset hd 1
  cases ha
  exact ⟨hset, hd, _, last, rfl, hresolves, _, rfl⟩

end Arena

end VirtualPeople
