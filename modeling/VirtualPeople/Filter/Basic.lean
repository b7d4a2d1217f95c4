import VirtualPeople.Record.Field

/-!
# Filters

A filter is a condition on a record. Its fields are resolved and its literals have the type of
their fields, so whether it holds is always defined. It is asked of a message that may be unset,
in which every field is unset; that is what a condition within a message comes down to.
-/

namespace VirtualPeople

mutual

/-- A condition on the records of a schema. -/
inductive Filter : Fields → Type
  | always {fs : Fields} : Filter fs
  | has {fs : Fields} (field : Field fs) : Filter fs
  | equal {fs : Fields} (field : ScalarField fs) (literal : field.kind.Carrier) : Filter fs
  | greater {fs : Fields} (field : ScalarField fs) (literal : field.kind.Carrier) : Filter fs
  | less {fs : Fields} (field : ScalarField fs) (literal : field.kind.Carrier) : Filter fs
  | oneOf {fs : Fields} (field : ScalarField fs) (literals : List field.kind.Carrier) : Filter fs
  | all {fs : Fields} (parts : Filters fs) : Filter fs
  | any {fs : Fields} (parts : Filters fs) : Filter fs
  | not {fs : Fields} (part : Filter fs) : Filter fs
  | within {fs : Fields} (field : MessageField fs) (parts : Filters field.fields) : Filter fs

/-- Conditions on the records of a schema. -/
inductive Filters : Fields → Type
  | nil {fs : Fields} : Filters fs
  | cons {fs : Fields} (first : Filter fs) (rest : Filters fs) : Filters fs

end

mutual

/-- Whether a filter holds of a message, none standing for one that is unset. -/
def Filter.holdsOf : {fs : Fields} → Filter fs → Option fs.Record → Bool
  | _, .always, _ => true
  | _, .has field, m => m.any field.isSet
  | _, .equal field literal, m => (m.bind field.get).any fun v => field.kind.beq v literal
  | _, .greater field literal, m => (m.bind field.get).any fun v => field.kind.lt literal v
  | _, .less field literal, m => (m.bind field.get).any fun v => field.kind.lt v literal
  | _, .oneOf field literals, m =>
    (m.bind field.get).any fun v => literals.any fun literal => field.kind.beq v literal
  | _, .all parts, m => parts.allHoldOf m
  | _, .any parts, m => parts.anyHoldsOf m
  | _, .not part, m => !part.holdsOf m
  | _, .within field parts, m => parts.allHoldOf (m.bind field.path.get)

def Filters.allHoldOf : {fs : Fields} → Filters fs → Option fs.Record → Bool
  | _, .nil, _ => true
  | _, .cons first rest, m => first.holdsOf m && rest.allHoldOf m

def Filters.anyHoldsOf : {fs : Fields} → Filters fs → Option fs.Record → Bool
  | _, .nil, _ => false
  | _, .cons first rest, m => first.holdsOf m || rest.anyHoldsOf m

end

/-- Whether a filter holds of a record. -/
def Filter.holds {fs : Fields} (f : Filter fs) (r : fs.Record) : Bool := f.holdsOf (some r)

namespace Filters

def ofList {fs : Fields} : List (Filter fs) → Filters fs
  | [] => .nil
  | first :: rest => .cons first (ofList rest)

end Filters

/-- The place of the first filter that holds of a record. -/
def firstMatch {fs : Fields} (filters : List (Filter fs)) (r : fs.Record) : Option Nat :=
  filters.findIdx? (·.holds r)

end VirtualPeople
