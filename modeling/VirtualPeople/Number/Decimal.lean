import VirtualPeople.Number.Binary

/-!
# Decimal text of floating-point numbers

A decimal is a natural `digits` scaled by a power of ten. Reading one rounds it to the nearest
number of a binary format; the shortest decimal of a number is found by trying one digit, two
digits and so on, and taking the first decimal beside the number that reads back as the number.
Two layouts write it: plain, which never has an exponent, and the one of JSON, which has one
outside `10 ^ -5 .. 10 ^ 16` and always marks a number as not an integer. If a number lies halfway
between two decimals, the plain text takes the upper one and JSON the one with an even last digit.
-/

namespace VirtualPeople

/-- The number `digits * 10 ^ exponent`. -/
structure Decimal where
  digits : Nat
  exponent : Int
deriving DecidableEq, Repr

/-- Which one of two decimals that are equally near stands for a number. -/
inductive Tie
  | even
  | upper

namespace Decimal

/-- The rank of the number of `f` nearest to a decimal. What is far beyond the range of `f` is
told from the exponent, so that its power of ten is never computed. -/
def rank (d : Decimal) (f : Format) : Nat :=
  match d.exponent with
  | .ofNat e =>
    if d.digits = 0 then 0
    else if 400 < e then f.infinity
    else f.nearest (d.digits * Nat.pow 10 e) 1
  | .negSucc e =>
    if d.digits.log2 + 1200 < 3 * e then 0
    else f.nearest d.digits (Nat.pow 10 (e + 1))

/-- The same number without trailing zeros among its digits, for digits below `10 ^ fuel`. -/
def trimmed : Nat → Decimal → Decimal
  | 0, d => d
  | fuel + 1, ⟨n, e⟩ =>
    if n ≠ 0 ∧ n % 10 = 0 then trimmed fuel ⟨n / 10, e + 1⟩ else ⟨n, e⟩

end Decimal

namespace Format

/-- A number of `f` as a quotient of naturals. -/
def quotient (f : Format) (rank : Nat) : Nat × Nat :=
  match f.value rank with
  | (m, .ofNat q) => (m <<< q, 1)
  | (m, .negSucc q) => (m, 1 <<< (q + 1))

/-- The quotient `num / den` divided by `10 ^ k`, still as a quotient. -/
def scaledTen (num den : Nat) : Int → Nat × Nat
  | .ofNat k => (num, den * Nat.pow 10 k)
  | .negSucc k => (num * Nat.pow 10 (k + 1), den)

/-- The exponent of the leading digit of a positive quotient: a guess from the lengths in bits is
off by less than two. -/
def leading (num den : Nat) : Int :=
  let guess := (((num.log2 : Int) - den.log2) * 30103).fdiv 100000
  let reached (k : Int) : Bool := let (n, d) := scaledTen num den k; d ≤ n
  ([guess + 1, guess, guess - 1].find? reached).getD (guess - 2)

/-- The decimals with last place `k` on either side of `num / den`, the nearer one first. -/
def beside (tie : Tie) (num den : Nat) (k : Int) : List Decimal :=
  let (n, d) := scaledTen num den k
  let low : Decimal := ⟨n / d, k⟩
  let high : Decimal := ⟨n / d + 1, k⟩
  match compare (2 * (n % d)) d, tie with
  | .lt, _ => [low, high]
  | .gt, _ | .eq, .upper => [high, low]
  | .eq, .even => if n / d % 2 = 0 then [low, high] else [high, low]

/-- The decimal with the fewest digits that reads back as the number of `f` of a rank; if none of
seventeen digits did, the number itself written out. -/
def shortest (f : Format) (tie : Tie) (rank : Nat) : Decimal :=
  let (num, den) := f.quotient rank
  let top := leading num den
  let candidates := (List.range 18).flatMap fun n : Nat => beside tie num den (top - n)
  match candidates.find? fun d => d.rank f == rank with
  | some d => d.trimmed 32
  | none =>
    match f.value rank with
    | (m, .ofNat q) => ⟨m <<< q, 0⟩
    | (m, .negSucc q) => ⟨m * Nat.pow 5 (q + 1), .negSucc q⟩

end Format

namespace Decimal

/-- The digits of a natural in base ten. -/
def digitChars (n : Nat) : List Char := Nat.toDigits 10 n

/-- Without an exponent, and without a point unless there are places behind it. -/
def plain (d : Decimal) : List Char :=
  let ds := digitChars d.digits
  match d.exponent with
  | .ofNat e => if d.digits = 0 then ['0'] else ds ++ List.replicate e '0'
  | .negSucc e =>
    if e + 1 < ds.length then ds.take (ds.length - (e + 1)) ++ '.' :: ds.drop (ds.length - (e + 1))
    else '0' :: '.' :: (List.replicate (e + 1 - ds.length) '0' ++ ds)

/-- The exponent of the leading digit. -/
def magnitude (d : Decimal) : Int := d.exponent + (digitChars d.digits).length - 1

/-- The layout of numbers in JSON: plain with a point for magnitudes from -5 to 15, else one digit
before the point and a signed exponent. -/
def jsonLayout (d : Decimal) : List Char :=
  let e := d.magnitude
  if d.digits = 0 then ['0', '.', '0']
  else if -5 ≤ e ∧ e < 16 then
    if d.exponent < 0 then d.plain else d.plain ++ ['.', '0']
  else
    let sign := if e < 0 then '-' else '+'
    let tail := 'e' :: sign :: digitChars e.natAbs
    match digitChars d.digits with
    | [] => tail
    | [c] => c :: tail
    | c :: cs => c :: '.' :: (cs ++ tail)

end Decimal

/-- The number of a rank in a layout, behind a minus if it is negative. -/
def signedText (negative : Bool) (text : List Char) : List Char :=
  if negative then '-' :: text else text

/-- The plain text of a finite or infinite number or of no number. -/
def plainText (f : Format) (negative : Bool) (rank : Nat) : String :=
  if f.infinity < rank then "NaN"
  else if rank = f.infinity then String.ofList (signedText negative "inf".toList)
  else if rank = 0 then String.ofList (signedText negative ['0'])
  else String.ofList (signedText negative (f.shortest .upper rank).plain)

/-- A double in plain decimal text. -/
def doubleText (x : Float) : String := plainText .double (isNegative x) (rankOf x)

/-- A single in plain decimal text, with the digits that tell it from other singles. -/
def singleText (x : Float32) : String := plainText .single (isNegativeSingle x) (singleRank x)

/-- A finite double in the layout of JSON. -/
def jsonNumberText (x : Float) : List Char :=
  let rank := rankOf x
  let d : Decimal := if rank = 0 then ⟨0, 0⟩ else Format.double.shortest .even rank
  signedText (isNegative x) d.jsonLayout

end VirtualPeople
