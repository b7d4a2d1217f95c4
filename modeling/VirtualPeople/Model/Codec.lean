import VirtualPeople.Hash.Blake3
import VirtualPeople.Model.Spec

/-!
# Models as JSON

Every part of a model is written with the members that are set, in a fixed order; of the lists
only a model's nodes and a filter's parts are left out when empty. The canonical text of a model
is what its hash is taken of.
-/

namespace VirtualPeople

namespace DebugInfo

def decoder : Decoder DebugInfo :=
  Decoder.record ["directly_from_model_builder_config"] fun n values =>
    match values with
    | [fromBuilder] => do return ⟨← Decoder.optional Decoder.bool n fromBuilder⟩
    | _ => none

def toJson (d : DebugInfo) : Json :=
  .object (Json.member "directly_from_model_builder_config" (d.fromBuilder.map .bool))

end DebugInfo

namespace EdgeSpec

/-- Reads a branch, given a reader of its child. -/
def decoder (node : Decoder NodeSpec) : Decoder EdgeSpec :=
  Decoder.record ["node", "node_index", "chance", "condition"] fun n values =>
    match values with
    | [child, childIndex, chance, condition] => do
      return {
        child := ← Decoder.optional node n child
        childIndex := ← Decoder.optional Decoder.uint32 n childIndex
        chance := ← Decoder.optional Decoder.single n chance
        condition := ← Decoder.optional FilterSpec.decoder n condition }
    | _ => none

end EdgeSpec

namespace UpdateSpec

def fieldNames : List String :=
  ["update_matrix", "sparse_update_matrix", "conditional_merge", "conditional_assignment",
    "geometric_shredder", "update_tree"]

/-- Reads a tree, given a reader of its root. -/
def treeDecoder (node : Decoder NodeSpec) : Decoder (Option NodeSpec) :=
  Decoder.record ["root"] fun n values =>
    match values with
    | [root] => Decoder.optional node n root
    | _ => none

/-- Reads an update, given a reader of the root of a tree. -/
def decoder (node : Decoder NodeSpec) : Decoder UpdateSpec :=
  Decoder.record fieldNames fun n values =>
    match values with
    | [matrix, sparseMatrix, merge, assignment, shredder, tree] => do
      return {
        matrix := ← Decoder.optional MatrixSpec.decoder n matrix
        sparseMatrix := ← Decoder.optional SparseMatrixSpec.decoder n sparseMatrix
        merge := ← Decoder.optional ConditionalMergeSpec.decoder n merge
        assignment := ← Decoder.optional ConditionalAssignmentSpec.decoder n assignment
        shredder := ← Decoder.optional ShredderSpec.decoder n shredder
        tree := ← Decoder.optional (treeDecoder node) n tree }
    | _ => none

end UpdateSpec

namespace BranchSpec

/-- Reads updates, given a reader of the roots of trees. -/
def updatesDecoder (node : Decoder NodeSpec) : Decoder (List UpdateSpec) :=
  Decoder.record ["updates"] fun n values =>
    match values with
    | [updates] => Decoder.orElse (Decoder.list (UpdateSpec.decoder node)) [] n updates
    | _ => none

/-- Reads what a branching node does, given a reader of the nodes in it. -/
def decoder (node : Decoder NodeSpec) : Decoder BranchSpec :=
  Decoder.record ["branches", "random_seed", "updates", "multiplicity"] fun n values =>
    match values with
    | [edges, seed, updates, multiplicity] => do
      return {
        edges := ← Decoder.orElse (Decoder.list (EdgeSpec.decoder node)) [] n edges
        seed := ← Decoder.optional Decoder.string n seed
        updates := ← Decoder.optional (updatesDecoder node) n updates
        multiplicity := ← Decoder.optional MultiplicitySpec.decoder n multiplicity }
    | _ => none

end BranchSpec

namespace NodeSpec

def fieldNames : List String :=
  ["name", "index", "debug_info", "branch_node", "population_node", "stop_node"]

def stopDecoder : Decoder Unit := Decoder.record [] fun _ _ => some ()

/-- Reads a node with nodes at most `depth` deep in each other. -/
def decoderTo : (depth : Nat) → Decoder NodeSpec
  | 0 => fun _ _ => none
  | depth + 1 => Decoder.record fieldNames fun n values =>
    match values with
    | [name, index, debugInfo, branch, population, stop] => do
      return {
        name := ← Decoder.optional Decoder.string n name
        index := ← Decoder.optional Decoder.uint32 n index
        debugInfo := ← Decoder.optional DebugInfo.decoder n debugInfo
        branch := ← Decoder.optional (BranchSpec.decoder (decoderTo depth)) n branch
        population := ← Decoder.optional PopulationSpec.decoder n population
        stop := ← Decoder.optional stopDecoder n stop }
    | _ => none

/-- Reads a node; it cannot be deeper than the levels that are left. -/
def decoder : Decoder NodeSpec := fun n => decoderTo n n

end NodeSpec

mutual

def NodeSpec.toJson : NodeSpec → Json
  | ⟨name, index, debugInfo, branch, population, stop⟩ =>
    .object (Json.member "name" (name.map .string) ++
      Json.member "index" (index.map fun i => .ofNat i.toNat) ++
      Json.member "debug_info" (debugInfo.map DebugInfo.toJson) ++
      (match branch with
        | none => []
        | some b => [("branch_node", b.toJson)]) ++
      Json.member "population_node" (population.map PopulationSpec.toJson) ++
      Json.member "stop_node" (stop.map fun _ => .object []))

def BranchSpec.toJson : BranchSpec → Json
  | ⟨edges, seed, updates, multiplicity⟩ =>
    .object (("branches", .array (edgesJson edges)) ::
      (Json.member "random_seed" (seed.map .string) ++
        (match updates with
          | none => []
          | some us => [("updates", .object [("updates", .array (updatesJson us))])]) ++
        Json.member "multiplicity" (multiplicity.map MultiplicitySpec.toJson)))

def edgesJson : List EdgeSpec → List Json
  | [] => []
  | e :: rest => e.toJson :: edgesJson rest

def EdgeSpec.toJson : EdgeSpec → Json
  | ⟨child, childIndex, chance, condition⟩ =>
    .object ((match child with
        | none => []
        | some c => [("node", c.toJson)]) ++
      Json.member "node_index" (childIndex.map fun i => .ofNat i.toNat) ++
      Json.member "chance" (chance.map fun c => .ofFloat (widen c)) ++
      Json.member "condition" (condition.map FilterSpec.toJson))

def updatesJson : List UpdateSpec → List Json
  | [] => []
  | u :: rest => u.toJson :: updatesJson rest

def UpdateSpec.toJson : UpdateSpec → Json
  | ⟨matrix, sparseMatrix, merge, assignment, shredder, tree⟩ =>
    .object (Json.member "update_matrix" (matrix.map MatrixSpec.toJson) ++
      Json.member "sparse_update_matrix" (sparseMatrix.map SparseMatrixSpec.toJson) ++
      Json.member "conditional_merge" (merge.map ConditionalMergeSpec.toJson) ++
      Json.member "conditional_assignment" (assignment.map ConditionalAssignmentSpec.toJson) ++
      Json.member "geometric_shredder" (shredder.map ShredderSpec.toJson) ++
      (match tree with
        | none => []
        | some none => [("update_tree", .object [])]
        | some (some root) => [("update_tree", .object [("root", root.toJson)])]))

end

namespace ModelSpec

def decoder : Decoder ModelSpec := Decoder.record ["root", "nodes"] fun n values =>
  match values with
  | [root, nodes] => do
    return ⟨← Decoder.optional NodeSpec.decoder n root,
      ← Decoder.orElse (Decoder.list NodeSpec.decoder) [] n nodes⟩
  | _ => none

def toJson (m : ModelSpec) : Json :=
  .object (Json.member "root" (m.root.map NodeSpec.toJson) ++
    Json.listMember "nodes" (m.nodes.map NodeSpec.toJson))

def canonicalText (m : ModelSpec) : String := m.toJson.canonicalText

/-- The hash of the canonical text, in hexadecimal. -/
def hash (m : ModelSpec) : String := blake3 m.canonicalText

/-- Reads the text of a model. -/
def read (text : String) : Except Error ModelSpec :=
  match decoder.readText text with
  | none => .error .json
  | some m => do
    m.validate
    return m

end ModelSpec

end VirtualPeople
