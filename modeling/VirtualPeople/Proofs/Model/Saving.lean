import VirtualPeople.Model.Codec
import VirtualPeople.Proofs.Update.Saving

/-!
# Saved models are loaded unchanged

A model whose numbers are finite is what is read from its canonical text
(`ModelSpec.read_saved`). A node is read with a bound on how deep the nodes in it nest; the
depth of its JSON is such a bound, since every node in it is at least one level down
(`NodeSpec.encodesTo`).
-/

namespace VirtualPeople

open Json

theorem Pool.encodes (p : Pool) : Encodes decoder p.toJson p := by
  have hoffset : FieldEncodes (Decoder.orElse Decoder.uint64 0) (some (.ofNat p.offset.toNat))
      p.offset := .given (.uint64 p.offset)
  have hpopulation : FieldEncodes (Decoder.orElse Decoder.uint64 0)
      (some (.ofNat p.population.toNat)) p.population := .given (.uint64 p.population)
  refine .fields [⟨hoffset⟩, ⟨hpopulation⟩] (by decide) rfl rfl fun g n h => ?_
  simp only [List.forall_mem_cons] at h
  simp only [List.map, h]
  rfl

theorem PopulationSpec.encodes (p : PopulationSpec) : Encodes decoder p.toJson p := by
  have hpools : ∀ pool ∈ p.pools, Encodes Pool.decoder pool.toJson pool :=
    fun pool _ => pool.encodes
  refine .fields [⟨.items hpools⟩, ⟨.string p.seed⟩] (by decide) rfl ?_ fun g n h => ?_
  · simp only [toJson, fieldNames, List.map, membersOf, member_some, List.append_nil,
      List.cons_append, List.nil_append]
  · simp only [List.forall_mem_cons] at h
    simp only [List.map, h]
    rfl

def MultiplicitySpec.finite (m : MultiplicitySpec) : Bool :=
  m.expected.all isFinite && m.max.all isFinite

theorem MultiplicitySpec.encodes {m : MultiplicitySpec} (h : m.finite) :
    Encodes decoder m.toJson m := by
  obtain ⟨hexpected, hmax⟩ := Bool.and_eq_true_iff.1 h
  refine .fields [⟨.double hexpected⟩, ⟨.string m.expectedField⟩, ⟨.double hmax⟩,
    ⟨.bool m.capAtMax⟩, ⟨.string m.personIndexField⟩, ⟨.string m.seed⟩] (by decide) rfl ?_
    fun g n h => ?_
  · simp only [toJson, fieldNames, List.map, membersOf, List.append_assoc, List.append_nil]
  · simp only [List.forall_mem_cons] at h
    simp only [List.map, h]
    rfl

theorem DebugInfo.encodes (d : DebugInfo) : Encodes decoder d.toJson d := by
  refine .fields [⟨.bool d.fromBuilder⟩] (by decide) rfl ?_ fun g n h => ?_
  · simp only [toJson, List.map, membersOf, List.append_nil]
  · simp only [List.forall_mem_cons] at h
    simp only [List.map, h]
    rfl

mutual

/-- Whether JSON has a number for every number of a node and of the nodes in it. -/
def NodeSpec.finite : NodeSpec → Bool
  | ⟨_, _, _, none, _, _⟩ => true
  | ⟨_, _, _, some b, _, _⟩ => b.finite

def BranchSpec.finite : BranchSpec → Bool
  | ⟨edges, _, none, multiplicity⟩ => edgesFinite edges && multiplicity.all MultiplicitySpec.finite
  | ⟨edges, _, some updates, multiplicity⟩ =>
    edgesFinite edges && updatesFinite updates && multiplicity.all MultiplicitySpec.finite

def edgesFinite : List EdgeSpec → Bool
  | [] => true
  | e :: rest => e.finite && edgesFinite rest

def EdgeSpec.finite : EdgeSpec → Bool
  | ⟨none, _, chance, _⟩ => chance.all fun c => isFinite (widen c)
  | ⟨some child, _, chance, _⟩ => child.finite && chance.all fun c => isFinite (widen c)

def updatesFinite : List UpdateSpec → Bool
  | [] => true
  | u :: rest => u.finite && updatesFinite rest

def UpdateSpec.finite : UpdateSpec → Bool
  | ⟨matrix, sparseMatrix, merge, _, shredder, tree⟩ =>
    matrix.all MatrixSpec.finite && sparseMatrix.all SparseMatrixSpec.finite &&
      merge.all ConditionalMergeSpec.finite && shredder.all ShredderSpec.finite && treeFinite tree

def treeFinite : Option (Option NodeSpec) → Bool
  | some (some root) => root.finite
  | _ => true

end

theorem edgesFinite_eq_all (edges : List EdgeSpec) :
    edgesFinite edges = edges.all EdgeSpec.finite := by
  induction edges with
  | nil => rfl
  | cons e rest ih => exact congrArg (e.finite && ·) ih

theorem updatesFinite_eq_all (updates : List UpdateSpec) :
    updatesFinite updates = updates.all UpdateSpec.finite := by
  induction updates with
  | nil => rfl
  | cons u rest ih => exact congrArg (u.finite && ·) ih

theorem edgesJson_eq_map (edges : List EdgeSpec) : edgesJson edges = edges.map EdgeSpec.toJson := by
  induction edges with
  | nil => rfl
  | cons e rest ih => exact congrArg (e.toJson :: ·) ih

theorem updatesJson_eq_map (updates : List UpdateSpec) :
    updatesJson updates = updates.map UpdateSpec.toJson := by
  induction updates with
  | nil => rfl
  | cons u rest ih => exact congrArg (u.toJson :: ·) ih

/-- The decoder reads the nodes whose JSON is at most `k` deep and has all their numbers. -/
def NodesEncoded (node : Decoder NodeSpec) (k : Nat) : Prop :=
  ∀ spec : NodeSpec, spec.finite → spec.toJson.depth ≤ k → Encodes node spec.toJson spec

variable {node : Decoder NodeSpec} {k : Nat}

theorem EdgeSpec.toJson_eq : ∀ e : EdgeSpec, e.toJson =
    .object (membersOf ["node", "node_index", "chance", "condition"]
      [e.child.map NodeSpec.toJson, e.childIndex.map fun i => .ofNat i.toNat,
        e.chance.map fun c => .ofFloat (widen c), e.condition.map FilterSpec.toJson])
  | ⟨none, _, _, _⟩ => by
    simp only [toJson, membersOf, List.append_assoc, List.append_nil]
    rfl
  | ⟨some _, _, _, _⟩ => by
    simp only [toJson, membersOf, List.append_assoc, List.append_nil]
    rfl

theorem EdgeSpec.finite_child : ∀ {e : EdgeSpec}, e.finite → ∀ c ∈ e.child, c.finite
  | ⟨some _, _, _, _⟩, h, _, rfl => (Bool.and_eq_true_iff.1 h).1

theorem EdgeSpec.finite_chance : ∀ {e : EdgeSpec}, e.finite →
    e.chance.all fun c => isFinite (widen c)
  | ⟨none, _, _, _⟩, h => h
  | ⟨some _, _, _, _⟩, h => (Bool.and_eq_true_iff.1 h).2

theorem EdgeSpec.encodes (hnode : NodesEncoded node k) {e : EdgeSpec} (hfinite : e.finite)
    (hdepth : e.toJson.depth ≤ k) : Encodes (decoder node) e.toJson e := by
  have hchild : ∀ c ∈ e.child, Encodes node c.toJson c := by
    intro c hc
    refine hnode c (finite_child hfinite c hc) (le_trans (Nat.le_of_lt ?_) hdepth)
    rw [toJson_eq, Option.mem_def.1 hc]
    exact depth_lt_of_some_mem rfl List.mem_cons_self
  refine .fields [⟨.optional hchild⟩, ⟨.uint32 e.childIndex⟩, ⟨.single (finite_chance hfinite)⟩,
    ⟨.filter e.condition⟩] (by decide) rfl (toJson_eq e) fun g n h => ?_
  simp only [List.forall_mem_cons] at h
  simp only [List.map, h]
  cases e
  rfl

namespace UpdateSpec

/-- The JSON of a tree. -/
def treeJson (root : Option NodeSpec) : Json :=
  .object (membersOf ["root"] [root.map NodeSpec.toJson])

theorem toJson_eq (u : UpdateSpec) : u.toJson =
    .object (membersOf fieldNames
      [u.matrix.map MatrixSpec.toJson, u.sparseMatrix.map SparseMatrixSpec.toJson,
        u.merge.map ConditionalMergeSpec.toJson, u.assignment.map ConditionalAssignmentSpec.toJson,
        u.shredder.map ShredderSpec.toJson, u.tree.map treeJson]) := by
  rcases u with ⟨_, _, _, _, _, _ | _ | _⟩
  · simp only [toJson, fieldNames, membersOf, Option.map_none, member_none, List.append_assoc,
      List.append_nil]
  · simp only [toJson, fieldNames, membersOf, List.append_assoc, List.append_nil]
    rfl
  · simp only [toJson, fieldNames, membersOf, List.append_assoc, List.append_nil]
    rfl

theorem finite_root : ∀ {u : UpdateSpec}, u.finite → ∀ root ∈ u.tree, ∀ r ∈ root, r.finite
  | ⟨_, _, _, _, _, some (some _)⟩, h, _, rfl, _, rfl => (Bool.and_eq_true_iff.1 h).2

theorem tree_encodes {root : Option NodeSpec} (h : ∀ r ∈ root, Encodes node r.toJson r) :
    Encodes (treeDecoder node) (treeJson root) root := by
  refine .fields [⟨.optional h⟩] (by decide) rfl rfl fun g n h => ?_
  simp only [List.forall_mem_cons] at h
  simp only [List.map, h]

theorem encodes (hnode : NodesEncoded node k) {u : UpdateSpec} (hfinite : u.finite)
    (hdepth : u.toJson.depth ≤ k) : Encodes (decoder node) u.toJson u := by
  have htree : ∀ root ∈ u.tree, Encodes (treeDecoder node) (treeJson root) root := by
    intro root hroot
    refine tree_encodes fun r hr => ?_
    have hinner : r.toJson.depth < (treeJson root).depth := by
      rw [Option.mem_def.1 hr]
      exact depth_lt_of_some_mem rfl List.mem_cons_self
    have houter : (treeJson root).depth < u.toJson.depth := by
      rw [toJson_eq, Option.mem_def.1 hroot]
      exact depth_lt_of_some_mem rfl (by simp)
    exact hnode r (finite_root hfinite root hroot r hr) (by omega)
  rcases u with ⟨matrix, sparseMatrix, merge, assignment, shredder, tree⟩
  simp only [finite, Bool.and_eq_true, Option.all_eq_true] at hfinite
  obtain ⟨⟨⟨⟨hmatrix, hsparse⟩, hmerge⟩, hshredder⟩, -⟩ := hfinite
  refine .fields
    [⟨.optional fun m hm => MatrixSpec.encodes (hmatrix m hm)⟩,
      ⟨.optional fun m hm => SparseMatrixSpec.encodes (hsparse m hm)⟩,
      ⟨.optional fun m hm => ConditionalMergeSpec.encodes (hmerge m hm)⟩,
      ⟨.optional fun a _ => ConditionalAssignmentSpec.encodes a⟩,
      ⟨.optional fun s hs => ShredderSpec.encodes (hshredder s hs)⟩, ⟨.optional htree⟩]
    (by decide) rfl (toJson_eq _) fun g n h => ?_
  simp only [List.forall_mem_cons] at h
  simp only [List.map, h]
  rfl

end UpdateSpec

namespace BranchSpec

/-- The JSON of updates. -/
def updatesObject (updates : List UpdateSpec) : Json :=
  .object (membersOf ["updates"] [some (.array (updates.map UpdateSpec.toJson))])

theorem toJson_eq : ∀ b : BranchSpec, b.toJson =
    .object (membersOf ["branches", "random_seed", "updates", "multiplicity"]
      [some (.array (b.edges.map EdgeSpec.toJson)), b.seed.map .string,
        b.updates.map updatesObject, b.multiplicity.map MultiplicitySpec.toJson])
  | ⟨_, _, none, _⟩ => by
    simp only [toJson, edgesJson_eq_map, membersOf, List.append_nil]
    rfl
  | ⟨_, _, some _, _⟩ => by
    simp only [toJson, edgesJson_eq_map, updatesJson_eq_map, membersOf, List.append_assoc,
      List.append_nil]
    rfl

theorem updates_encode {updates : List UpdateSpec}
    (h : ∀ u ∈ updates, Encodes (UpdateSpec.decoder node) u.toJson u) :
    Encodes (updatesDecoder node) (updatesObject updates) updates := by
  refine .fields [⟨.items h⟩] (by decide) rfl rfl fun g n h => ?_
  simp only [List.forall_mem_cons] at h
  simp only [List.map, h]

theorem finite_edges : ∀ {b : BranchSpec}, b.finite → b.edges.all EdgeSpec.finite
  | ⟨edges, _, none, _⟩, h => edgesFinite_eq_all edges ▸ (Bool.and_eq_true_iff.1 h).1
  | ⟨edges, _, some _, _⟩, h =>
    edgesFinite_eq_all edges ▸ (Bool.and_eq_true_iff.1 (Bool.and_eq_true_iff.1 h).1).1

theorem finite_updates : ∀ {b : BranchSpec}, b.finite → ∀ updates ∈ b.updates,
    updates.all UpdateSpec.finite
  | ⟨_, _, some updates, _⟩, h, _, rfl =>
    updatesFinite_eq_all updates ▸ (Bool.and_eq_true_iff.1 (Bool.and_eq_true_iff.1 h).1).2

theorem finite_multiplicity : ∀ {b : BranchSpec}, b.finite →
    b.multiplicity.all MultiplicitySpec.finite
  | ⟨_, _, none, _⟩, h => (Bool.and_eq_true_iff.1 h).2
  | ⟨_, _, some _, _⟩, h => (Bool.and_eq_true_iff.1 h).2

theorem encodes (hnode : NodesEncoded node k) {b : BranchSpec} (hfinite : b.finite)
    (hdepth : b.toJson.depth ≤ k) : Encodes (decoder node) b.toJson b := by
  have hedges : ∀ e ∈ b.edges, Encodes (EdgeSpec.decoder node) e.toJson e := by
    intro e he
    have hinner := depth_lt_of_mem (List.mem_map_of_mem (f := EdgeSpec.toJson) he)
    have houter : (Json.array (b.edges.map EdgeSpec.toJson)).depth < b.toJson.depth := by
      rw [toJson_eq]
      exact depth_lt_of_some_mem rfl List.mem_cons_self
    exact EdgeSpec.encodes hnode (List.all_eq_true.1 (finite_edges hfinite) e he) (by omega)
  have hupdates : ∀ updates ∈ b.updates,
      Encodes (updatesDecoder node) (updatesObject updates) updates := by
    intro updates hmem
    refine updates_encode fun u hu => ?_
    have hinner := depth_lt_of_mem (List.mem_map_of_mem (f := UpdateSpec.toJson) hu)
    have hmiddle : (Json.array (updates.map UpdateSpec.toJson)).depth <
        (updatesObject updates).depth := depth_lt_of_some_mem rfl List.mem_cons_self
    have houter : (updatesObject updates).depth < b.toJson.depth := by
      rw [toJson_eq, Option.mem_def.1 hmem]
      exact depth_lt_of_some_mem rfl (by simp)
    exact UpdateSpec.encodes hnode
      (List.all_eq_true.1 (finite_updates hfinite updates hmem) u hu) (by omega)
  have hmultiplicity : ∀ m ∈ b.multiplicity, Encodes MultiplicitySpec.decoder m.toJson m :=
    fun m hm => MultiplicitySpec.encodes
      ((Option.all_eq_true _ _).1 (finite_multiplicity hfinite) m hm)
  refine .fields [⟨.items hedges⟩, ⟨.string b.seed⟩, ⟨.optional hupdates⟩,
    ⟨.optional hmultiplicity⟩] (by decide) rfl (toJson_eq b) fun g n h => ?_
  simp only [List.forall_mem_cons] at h
  simp only [List.map, h]
  cases b
  rfl

end BranchSpec

namespace NodeSpec

theorem toJson_eq (n : NodeSpec) : n.toJson =
    .object (membersOf fieldNames
      [n.name.map .string, n.index.map fun i => .ofNat i.toNat, n.debugInfo.map DebugInfo.toJson,
        n.branch.map BranchSpec.toJson, n.population.map PopulationSpec.toJson,
        n.stop.map fun _ => .object []]) := by
  rcases n with ⟨_, _, _, _ | _, _, _⟩
  · simp only [toJson, fieldNames, membersOf, List.append_assoc, List.append_nil]
    rfl
  · simp only [toJson, fieldNames, membersOf, List.append_assoc, List.append_nil]
    rfl

theorem stop_encodes (u : Unit) : Encodes stopDecoder (.object []) u :=
  .fields [] (by decide) rfl rfl fun _ _ _ => rfl

theorem finite_branch : ∀ {n : NodeSpec}, n.finite → ∀ b ∈ n.branch, b.finite
  | ⟨_, _, _, some _, _, _⟩, h, _, rfl => h

/-- A node is read if the bound on the nodes in it is at least the depth of its JSON. -/
theorem encodesTo : ∀ k, NodesEncoded (decoderTo k) k
  | 0, n, _, hdepth => by
    rw [toJson_eq] at hdepth
    exact absurd hdepth (Nat.not_succ_le_zero _)
  | k + 1, n, hfinite, hdepth => by
    have hbranch : ∀ b ∈ n.branch, Encodes (BranchSpec.decoder (decoderTo k)) b.toJson b := by
      intro b hb
      have hlt : b.toJson.depth < n.toJson.depth := by
        rw [toJson_eq, Option.mem_def.1 hb]
        exact depth_lt_of_some_mem rfl (by simp)
      exact BranchSpec.encodes (encodesTo k) (finite_branch hfinite b hb) (by omega)
    refine .fields [⟨.string n.name⟩, ⟨.uint32 n.index⟩,
      ⟨.optional fun d _ => DebugInfo.encodes d⟩, ⟨.optional hbranch⟩,
      ⟨.optional fun p _ => PopulationSpec.encodes p⟩, ⟨.optional fun u _ => stop_encodes u⟩]
      (by decide) rfl (toJson_eq n) fun g m h => ?_
    simp only [List.forall_mem_cons] at h
    simp only [List.map, h]
    cases n
    rfl

theorem encodes {n : NodeSpec} (h : n.finite) : Encodes decoder n.toJson n :=
  have hn := encodesTo n.toJson.depth n h le_rfl
  ⟨hn.readable, hn.ne_null, fun hg k hk => (encodesTo k n h hk).reads hg k hk⟩

end NodeSpec

namespace ModelSpec

/-- Whether JSON has a number for every number of a model. -/
def finite (m : ModelSpec) : Bool := m.root.all NodeSpec.finite && m.nodes.all NodeSpec.finite

theorem encodes {m : ModelSpec} (h : m.finite) : Encodes decoder m.toJson m := by
  simp only [finite, Bool.and_eq_true, Option.all_eq_true, List.all_eq_true] at h
  obtain ⟨hroot, hnodes⟩ := h
  refine .fields [⟨.optional fun n hn => NodeSpec.encodes (hroot n hn)⟩,
    ⟨.list fun n hn => NodeSpec.encodes (hnodes n hn)⟩] (by decide) rfl ?_ fun g n h => ?_
  · simp only [toJson, listMember_eq, List.isEmpty_map, List.map, membersOf, List.append_nil]
  · simp only [List.forall_mem_cons] at h
    simp only [List.map, h]
    rfl

/-- A valid model whose numbers are finite and whose JSON is not nested too deep is read from its
canonical text, if its doubles are read back from theirs. -/
theorem read_saved {m : ModelSpec} (hvalid : m.validate = .ok ()) (hfinite : m.finite)
    (hdepth : m.toJson.depth ≤ nestingLimit) (hdoubles : m.toJson.DoublesReadBack) :
    read m.canonicalText = .ok m := by
  have hm := encodes hfinite
  have hread : decoder.readText m.canonicalText = some m := by
    rw [Decoder.readText, canonicalText, Json.read_canonicalText hm.readable hdoubles,
      Option.bind_some]
    exact hm.reads rearranges_canonical nestingLimit hdepth
  rw [read, hread]
  simp only [hvalid]
  rfl

/-- An event with a number, an empty message and a message in a message. -/
def savedEvent : Event :=
  (some 7, none, none, none, some 1.5, none, some Schema.demoBucket.fields.empty, none,
    some (some (some .female, none, ()), ()), none, [], ())

/-- A leaf and a stop behind chances, with an update, a filter and copies. -/
def saved : ModelSpec :=
  ⟨some ⟨some "root", some 0, some ⟨none⟩,
    some ⟨[⟨some ⟨some "leaf", none, none, none, some ⟨[⟨100, 10⟩], some ""⟩, none⟩, none,
          some 0.25, none⟩,
        ⟨some ⟨none, some 2, none, none, none, some ()⟩, none, some 0.75, none⟩],
      some "seed",
      some [⟨none, none, some ⟨[⟨some ⟨.has, some "label", none, []⟩, some savedEvent⟩],
        some false⟩, none, none, none⟩],
      some ⟨some 2.5, none, some 4, some true, some "multiplicity_person_index", some "copies"⟩⟩,
    none, none⟩, []⟩

theorem read_saved_tree :
    saved.validate = .ok () ∧ saved.finite ∧ saved.toJson.depth ≤ nestingLimit ∧
      saved.toJson.DoublesReadBack ∧ read saved.canonicalText = .ok saved := by
  have hfinite : saved.finite := by decide +kernel
  have hdepth : saved.toJson.depth ≤ nestingLimit := by decide +kernel
  have hdoubles : saved.toJson.DoublesReadBack := by decide +kernel
  exact ⟨rfl, hfinite, hdepth, hdoubles, read_saved rfl hfinite hdepth hdoubles⟩

end ModelSpec

end VirtualPeople
