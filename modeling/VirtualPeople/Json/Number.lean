import VirtualPeople.Json.Basic
import VirtualPeople.Text.Literal

/-!
# Numbers in JSON text

A number written without a point and an exponent is an integer, if 64 bits hold it. Any other is a
double, which is reached in steps: the digits that a 64-bit word holds are rounded to a double,
this is multiplied or divided by the double nearest to a power of ten, and the result is rounded
again. Up to 15 digits and a power of up to `10 ^ 22` are exact, so that the double is then the
nearest one; with more digits or a larger power it may be another one close by.
-/

namespace VirtualPeople

namespace Decimal

/-- The rank of the double nearest to a power of ten. -/
def powerRank (e : Nat) : Nat := rank ⟨1, e⟩ .double

/-- The rank of the double that a decimal comes to in steps. The largest power of ten is
`10 ^ 308`: beyond it everything but zero is infinite, and a larger divisor is split in two. -/
def rankInSteps (d : Decimal) : Nat :=
  let digits := Format.double.nearest d.digits 1
  match d.exponent with
  | .ofNat e =>
    if d.digits = 0 then 0
    else if 308 < e then Format.double.infinity
    else Format.double.product digits (powerRank e)
  | .negSucc e =>
    if e < 308 then Format.double.ratio digits (powerRank (e + 1))
    else
      let part := Format.double.ratio digits (powerRank 308)
      Format.double.ratio part (powerRank (min 308 (e - 307)))

end Decimal

namespace Json

/-- The digits, the places and the exponent of an unsigned number, and what follows. -/
structure Literal where
  whole : List Char
  places : Option (List Char)
  exponent : Option Int
  rest : List Char

/-- A sign and digits. -/
def exponentPart (cs : List Char) : Option (Int × List Char) :=
  let (negative, digits) :=
    match cs with
    | '+' :: more => (false, more)
    | '-' :: more => (true, more)
    | more => (false, more)
  (Text.natural? (digits.takeWhile Char.isDigit)).map fun n =>
    (if negative then -(n : Int) else n, digits.dropWhile Char.isDigit)

/-- An unsigned number: no digit may follow a leading zero, and a point and an exponent need
digits. -/
def literal? (cs : List Char) : Option Literal := do
  let whole := cs.takeWhile Char.isDigit
  guard (whole ≠ [] ∧ (whole.head? ≠ some '0' ∨ whole.length = 1))
  let rest := cs.dropWhile Char.isDigit
  let (places, rest) ←
    match rest with
    | '.' :: more =>
      let places := more.takeWhile Char.isDigit
      if places = [] then none else some (some places, more.dropWhile Char.isDigit)
    | rest => some (none, rest)
  match rest with
  | 'e' :: more | 'E' :: more =>
    let (exponent, rest) ← exponentPart more
    return ⟨whole, places, some exponent, rest⟩
  | rest => return ⟨whole, places, none, rest⟩

/-- A number with one more digit, if a 64-bit word holds it. -/
def withDigit? (n : Nat) (c : Char) : Option Nat :=
  let n := Text.digitsValue [c] + 10 * n
  if n < 18446744073709551616 then some n else none

/-- A number and the digits behind it, up to the first that a 64-bit word has no room for; from
there on a digit only counts as a power of ten. -/
def wholeDecimal (n : Nat) : List Char → Decimal
  | [] => ⟨n, 0⟩
  | c :: cs =>
    match withDigit? n c with
    | some n => wholeDecimal n cs
    | none => ⟨n, cs.length + 1⟩

/-- A decimal and the digits of its places, up to the first that a 64-bit word has no room for;
from there on they are passed over. -/
def withPlaces (d : Decimal) : List Char → Decimal
  | [] => d
  | c :: cs =>
    match withDigit? d.digits c with
    | some n => withPlaces ⟨n, d.exponent - 1⟩ cs
    | none => d

/-- The value of a number: an integer if it is written as one and 64 bits hold it, else a double.
A negative zero is a double. -/
def Literal.value (negative : Bool) (l : Literal) : Json :=
  let whole := wholeDecimal 0 l.whole
  let asDouble : Json :=
    let d := withPlaces whole (l.places.getD [])
    let x := doubleOf negative (Decimal.rankInSteps ⟨d.digits, d.exponent + l.exponent.getD 0⟩)
    if h : isFinite x = true then .float x h else .unreadable
  if l.places.isSome ∨ l.exponent.isSome ∨ 0 < whole.exponent ∨ negative ∧ whole.digits = 0 then
    asDouble
  else
    let i : Int := if negative then -(whole.digits : Int) else whole.digits
    if h : -9223372036854775808 ≤ i ∧ i < 18446744073709551616 then .int i h else asDouble

/-- A number at the head of a text. -/
def number? : List Char → Option (Json × List Char)
  | '-' :: cs => (literal? cs).map fun l => (l.value true, l.rest)
  | cs => (literal? cs).map fun l => (l.value false, l.rest)

end Json

end VirtualPeople
