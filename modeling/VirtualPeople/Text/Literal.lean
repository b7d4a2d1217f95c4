import VirtualPeople.Number.Decimal

/-!
# Blanks, pieces and numerals

Blank characters are those with the Unicode property White_Space. Trimming drops them from both
ends; `pieces` cuts a text at every occurrence of a separator, which always leaves one piece more
than there are separators.

Numerals are the written forms of integers, truth values and floating-point numbers. Digits are the
ten of ASCII. An integer is a sign and digits, where a minus needs a signed type; a floating-point
number has digits before or behind a point or both, perhaps an exponent, and may also be infinite or
no number, in any case.
-/

namespace VirtualPeople.Text

/-- The blank characters: three ranges and seven single ones. -/
def blankRanges : List (Nat × Nat) :=
  [(0x09, 0x0d), (0x20, 0x20), (0x85, 0x85), (0xa0, 0xa0), (0x1680, 0x1680), (0x2000, 0x200a),
    (0x2028, 0x2029), (0x202f, 0x202f), (0x205f, 0x205f), (0x3000, 0x3000)]

def isBlank (c : Char) : Bool :=
  blankRanges.any fun (lo, hi) => lo ≤ c.toNat && c.toNat ≤ hi

/-- Without the blanks at either end. -/
def trim (cs : List Char) : List Char :=
  ((cs.dropWhile isBlank).reverse.dropWhile isBlank).reverse

/-- The pieces of a text between the separators. -/
def pieces (separator : Char) : List Char → List (List Char)
  | [] => [[]]
  | c :: cs =>
    if c = separator then [] :: pieces separator cs
    else
      match pieces separator cs with
      | [] => [[c]]
      | piece :: rest => (c :: piece) :: rest

/-- The pieces of a string between the separators. -/
def split (separator : Char) (s : String) : List String :=
  (pieces separator s.toList).map String.ofList

/-- The value of a run of digits. -/
def digitsValue (cs : List Char) : Nat := cs.foldl (fun n c => 10 * n + (c.toNat - '0'.toNat)) 0

/-- Digits only, and at least one. -/
def natural? (cs : List Char) : Option Nat :=
  if cs ≠ [] ∧ cs.all Char.isDigit then some (digitsValue cs) else none

/-- A sign, which is a minus for signed types only, and digits. -/
def integer? (signed : Bool) : List Char → Option Int
  | '+' :: cs => (natural? cs).map Int.ofNat
  | '-' :: cs => if signed then (natural? cs).map fun n => -(n : Int) else none
  | cs => (natural? cs).map Int.ofNat

/-- An integer between two bounds, both allowed. -/
def integerIn? (lo hi : Int) (cs : List Char) : Option Int :=
  (integer? (lo < 0) cs).filter fun i => lo ≤ i && i ≤ hi

def boolean? (cs : List Char) : Option Bool :=
  if cs = "true".toList then some true else if cs = "false".toList then some false else none

/-- What stands behind the digits of a number: nothing, or an exponent with its mark. -/
def exponent? : List Char → Option Int
  | [] => some 0
  | c :: cs => if c = 'e' ∨ c = 'E' then integer? true cs else none

/-- A number without sign. -/
def decimal? (cs : List Char) : Option Decimal :=
  let whole := cs.takeWhile Char.isDigit
  let (places, rest) :=
    match cs.dropWhile Char.isDigit with
    | '.' :: more => (more.takeWhile Char.isDigit, more.dropWhile Char.isDigit)
    | rest => ([], rest)
  if whole = [] ∧ places = [] then none
  else (exponent? rest).map fun e => ⟨digitsValue (whole ++ places), e - places.length⟩

/-- The rank in `f` of an unsigned number, an infinity or no number. -/
def rank? (f : Format) (cs : List Char) : Option Nat :=
  let lower := cs.map Char.toLower
  if lower = "inf".toList ∨ lower = "infinity".toList then some f.infinity
  else if lower = "nan".toList then some (f.infinity + 1)
  else (decimal? cs).map fun d => d.rank f

/-- Sign and rank in `f` of a number. -/
def real? (f : Format) : List Char → Option (Bool × Nat)
  | '+' :: cs => (rank? f cs).map ((false, ·))
  | '-' :: cs => (rank? f cs).map ((true, ·))
  | cs => (rank? f cs).map ((false, ·))

def double? (cs : List Char) : Option Float := (real? .double cs).map fun (s, r) => doubleOf s r

def single? (cs : List Char) : Option Float32 := (real? .single cs).map fun (s, r) => singleOf s r

/-- An integer in decimal digits, behind a minus if it is negative. -/
def integerText : Int → List Char
  | .ofNat n => Decimal.digitChars n
  | .negSucc n => '-' :: Decimal.digitChars (n + 1)

end VirtualPeople.Text
