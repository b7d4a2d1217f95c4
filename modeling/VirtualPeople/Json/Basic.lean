import VirtualPeople.Number.Decimal

/-!
# JSON values

Numbers are 64-bit integers or finite doubles, told apart by how they are written. Members of an
object keep their order and may repeat a name, since the reader of a record has to refuse a
repeated field. `unreadable` stands for text that is well formed but has no value: a number beyond
every double, or a string with one half of a surrogate pair; it may stand only where nobody looks.
-/

namespace VirtualPeople

inductive Json
  | null
  | bool (value : Bool)
  | int (value : Int) (fits : -9223372036854775808 ≤ value ∧ value < 18446744073709551616)
  | float (value : Float) (finite : isFinite value = true)
  | string (text : String)
  | array (items : List Json)
  | object (members : List (String × Json))
  | unreadable

namespace Json

instance : Inhabited Json := ⟨.null⟩

/-- A double, or null if it is no finite number. -/
def ofFloat (x : Float) : Json :=
  if h : isFinite x = true then .float x h else .null

/-- An integer, or the nearest double outside the 64-bit range. -/
def ofInt (i : Int) : Json :=
  if h : -9223372036854775808 ≤ i ∧ i < 18446744073709551616 then .int i h
  else ofFloat (doubleOfInt i)

def ofNat (n : Nat) : Json := ofInt n

/-- The value of the first member of a name. -/
def member? (name : String) : Json → Option Json
  | .object members => members.lookup name
  | _ => none

mutual

/-- How deep arrays and objects nest. -/
def depth : Json → Nat
  | .array items => itemsDepth items + 1
  | .object members => membersDepth members + 1
  | _ => 0

def itemsDepth : List Json → Nat
  | [] => 0
  | item :: rest => max item.depth (itemsDepth rest)

def membersDepth : List (String × Json) → Nat
  | [] => 0
  | (_, value) :: rest => max value.depth (membersDepth rest)

end

mutual

/-- The members of every object in the order of their names, first to last in bytes. -/
def canonical : Json → Json
  | .array items => .array (canonicalItems items)
  | .object members => .object ((canonicalMembers members).mergeSort fun a b => a.1 ≤ b.1)
  | v => v

def canonicalItems : List Json → List Json
  | [] => []
  | item :: rest => item.canonical :: canonicalItems rest

def canonicalMembers : List (String × Json) → List (String × Json)
  | [] => []
  | (name, value) :: rest => (name, value.canonical) :: canonicalMembers rest

end

end Json

end VirtualPeople
