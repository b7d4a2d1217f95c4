import VirtualPeople.Json.Decoder
import VirtualPeople.Json.Writer
import VirtualPeople.Text.Literal

/-!
# Scalars

The kinds of scalar that a field may hold, the type each is stored in, and `Value`, a scalar
together with its kind, which is what is read from and written to a field known only by its path.
An enumerated value is a number there, since not every number names one.
-/

namespace VirtualPeople

inductive Gender
  | unknown
  | female
  | male
deriving DecidableEq, Repr, Inhabited

namespace Gender

/-- The names in the order of their numbers. -/
def table : List (String × Gender) :=
  [("GENDER_UNKNOWN", unknown), ("GENDER_FEMALE", female), ("GENDER_MALE", male)]

def name : Gender → String
  | unknown => "GENDER_UNKNOWN"
  | female => "GENDER_FEMALE"
  | male => "GENDER_MALE"

def number : Gender → Int32
  | unknown => 0
  | female => 1
  | male => 2

def ofNumber? (n : Int32) : Option Gender :=
  if n = 0 then some unknown else if n = 1 then some female else if n = 2 then some male else none

end Gender

/-- The kinds of scalar; the only enumerated type of the schemas is `Gender`. -/
inductive ScalarKind
  | int32
  | uint32
  | int64
  | uint64
  | float
  | double
  | bool
  | gender
  | string
deriving DecidableEq, Repr, Inhabited

namespace ScalarKind

def name : ScalarKind → String
  | int32 => "int32"
  | uint32 => "uint32"
  | int64 => "int64"
  | uint64 => "uint64"
  | float => "float"
  | double => "double"
  | bool => "bool"
  | gender => "enum"
  | string => "string"

def isInteger : ScalarKind → Bool
  | int32 | uint32 | int64 | uint64 => true
  | _ => false

def isNumeric (k : ScalarKind) : Bool := k.isInteger || k == float || k == double

/-- What a scalar of the kind is stored in. -/
@[reducible] def Carrier : ScalarKind → Type
  | int32 => Int32
  | uint32 => UInt32
  | int64 => Int64
  | uint64 => UInt64
  | float => Float32
  | double => Float
  | bool => Bool
  | gender => Gender
  | string => String

/-- Equality of numbers for numeric kinds, so that no number differs from itself. -/
def beq : (k : ScalarKind) → k.Carrier → k.Carrier → Bool
  | int32, a, b => a == b
  | uint32, a, b => a == b
  | int64, a, b => a == b
  | uint64, a, b => a == b
  | float, a, b => widen a == widen b
  | double, a, b => a == b
  | bool, a, b => a == b
  | gender, a, b => a == b
  | string, a, b => a == b

/-- The order of numbers; no two values of another kind are in it. -/
def lt : (k : ScalarKind) → k.Carrier → k.Carrier → Bool
  | int32, a, b => a < b
  | uint32, a, b => a < b
  | int64, a, b => a < b
  | uint64, a, b => a < b
  | float, a, b => widen a < widen b
  | double, a, b => a < b
  | _, _, _ => false

def decoder : (k : ScalarKind) → Decoder k.Carrier
  | int32 => Decoder.int32
  | uint32 => Decoder.uint32
  | int64 => Decoder.int64
  | uint64 => Decoder.uint64
  | float => Decoder.single
  | double => Decoder.double
  | bool => Decoder.bool
  | gender => Decoder.oneOf Gender.table
  | string => Decoder.string

def toJson : (k : ScalarKind) → k.Carrier → Json
  | int32, v => .ofInt v.toInt
  | uint32, v => .ofNat v.toNat
  | int64, v => .ofInt v.toInt
  | uint64, v => .ofNat v.toNat
  | float, v => .ofFloat (widen v)
  | double, v => .ofFloat v
  | bool, v => .bool v
  | gender, v => .string v.name
  | string, v => .string v

end ScalarKind

/-- A scalar that carries its kind. -/
inductive Value
  | int32 (value : Int32)
  | uint32 (value : UInt32)
  | int64 (value : Int64)
  | uint64 (value : UInt64)
  | float (value : Float32)
  | double (value : Float)
  | bool (value : Bool)
  | enum (number : Int32)
  | string (value : String)

namespace Value

def kind : Value → ScalarKind
  | int32 _ => .int32
  | uint32 _ => .uint32
  | int64 _ => .int64
  | uint64 _ => .uint64
  | float _ => .float
  | double _ => .double
  | bool _ => .bool
  | enum _ => .gender
  | string _ => .string

/-- A stored scalar with its kind. -/
def of : (k : ScalarKind) → k.Carrier → Value
  | .int32, v => int32 v
  | .uint32, v => uint32 v
  | .int64, v => int64 v
  | .uint64, v => uint64 v
  | .float, v => float v
  | .double, v => double v
  | .bool, v => bool v
  | .gender, v => enum v.number
  | .string, v => string v

/-- The scalar to store in a field of a kind, if the value is of that kind. -/
def as? : (k : ScalarKind) → Value → Option k.Carrier
  | .int32, int32 v => some v
  | .uint32, uint32 v => some v
  | .int64, int64 v => some v
  | .uint64, uint64 v => some v
  | .float, float v => some v
  | .double, double v => some v
  | .bool, bool v => some v
  | .gender, enum n => Gender.ofNumber? n
  | .string, string v => some v
  | _, _ => none

/-- The characters of the written form. -/
def chars : Value → List Char
  | int32 v => Text.integerText v.toInt
  | uint32 v => Text.integerText v.toNat
  | int64 v => Text.integerText v.toInt
  | uint64 v => Text.integerText v.toNat
  | float v => (singleText v).toList
  | double v => (doubleText v).toList
  | bool v => if v then "true".toList else "false".toList
  | enum n => Text.integerText n.toInt
  | string v => v.toList

def text (v : Value) : String := String.ofList v.chars

/-- As JSON, where an enumerated value is its number. -/
def toJson : Value → Json
  | enum n => .ofInt n.toInt
  | int32 v => ScalarKind.int32.toJson v
  | uint32 v => ScalarKind.uint32.toJson v
  | int64 v => ScalarKind.int64.toJson v
  | uint64 v => ScalarKind.uint64.toJson v
  | float v => ScalarKind.float.toJson v
  | double v => ScalarKind.double.toJson v
  | bool v => ScalarKind.bool.toJson v
  | string v => ScalarKind.string.toJson v

/-- The double nearest to a number. -/
def toDouble? : Value → Option Float
  | int32 v => some (doubleOfInt v.toInt)
  | uint32 v => some (doubleOfInt v.toNat)
  | int64 v => some (doubleOfInt v.toInt)
  | uint64 v => some (doubleOfInt v.toNat)
  | float v => some (widen v)
  | double v => some v
  | _ => none

end Value

namespace ScalarKind

/-- An integer as a scalar of an integer kind, if it is in range. -/
def ofInt? : (k : ScalarKind) → Int → Option k.Carrier
  | int32, i => if -2147483648 ≤ i ∧ i < 2147483648 then some (.ofInt i) else none
  | uint32, i => if 0 ≤ i ∧ i < 4294967296 then some (.ofNat i.toNat) else none
  | int64, i => if -9223372036854775808 ≤ i ∧ i < 9223372036854775808 then some (.ofInt i) else none
  | uint64, i => if 0 ≤ i ∧ i < 18446744073709551616 then some (.ofNat i.toNat) else none
  | _, _ => none

end ScalarKind

/-- The kind of a field as it is named in messages. -/
inductive FieldKind
  | scalar (kind : ScalarKind)
  | message
  | repeated
deriving DecidableEq, Repr

namespace FieldKind

def name : FieldKind → String
  | scalar k => k.name
  | message => "message"
  | repeated => "repeated"

def isInteger : FieldKind → Bool
  | scalar k => k.isInteger
  | _ => false

def isNumeric : FieldKind → Bool
  | scalar k => k.isNumeric
  | _ => false

def isScalar : FieldKind → Bool
  | scalar _ => true
  | _ => false

end FieldKind

/-- The kind of a field, and the names and numbers of its type if that is an enumerated one. -/
structure FieldDescriptor where
  kind : FieldKind
  enumValues : List (String × Int32)

namespace FieldDescriptor

/-- The number that a text without blanks around it denotes: that of the first entry of the name,
or else the number that is written. -/
def number? (d : FieldDescriptor) (cs : List Char) : Option Int32 :=
  match d.enumValues.lookup (String.ofList cs) with
  | some n => some n
  | none => (Text.integerIn? (-2147483648) 2147483647 cs).map Int32.ofInt

/-- The value that a text without blanks around it denotes. An enumerated value has to be one of
the type. -/
def ofChars? (d : FieldDescriptor) (cs : List Char) : Option Value :=
  match d.kind with
  | .scalar .int32 => (Text.integerIn? (-2147483648) 2147483647 cs).map fun i => .int32 (.ofInt i)
  | .scalar .uint32 => (Text.integerIn? 0 4294967295 cs).map fun i => .uint32 (.ofNat i.toNat)
  | .scalar .int64 =>
    (Text.integerIn? (-9223372036854775808) 9223372036854775807 cs).map fun i => .int64 (.ofInt i)
  | .scalar .uint64 =>
    (Text.integerIn? 0 18446744073709551615 cs).map fun i => .uint64 (.ofNat i.toNat)
  | .scalar .float => (Text.single? cs).map .float
  | .scalar .double => (Text.double? cs).map .double
  | .scalar .bool => (Text.boolean? cs).map .bool
  | .scalar .gender =>
    ((d.number? cs).filter fun n => d.enumValues.any fun entry => entry.2 == n).map .enum
  | .scalar .string => some (.string (String.ofList cs))
  | .message => none
  | .repeated => none

/-- The value that a text denotes for the field, blanks around it ignored. -/
def parse? (d : FieldDescriptor) (s : String) : Option Value := d.ofChars? (Text.trim s.toList)

end FieldDescriptor

/-- The descriptor of the fields of a kind. -/
def FieldKind.descriptor : FieldKind → FieldDescriptor
  | scalar .gender => ⟨scalar .gender, Gender.table.map fun (name, g) => (name, g.number)⟩
  | kind => ⟨kind, []⟩

/-- The scalar to store in a field of a kind that a text denotes. -/
def ScalarKind.parse? (k : ScalarKind) (s : String) : Option k.Carrier :=
  ((FieldKind.scalar k).descriptor.parse? s).bind (Value.as? k)

end VirtualPeople
