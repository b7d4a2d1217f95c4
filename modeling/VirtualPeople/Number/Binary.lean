/-!
# Binary floating point, exactly

The nonnegative numbers of a binary format stand in one order, zero first and infinity last, and
the place of a number in it (its *rank*) is its bit pattern without the sign. Rank and value are
exchanged here in exact arithmetic: `Format.value` reads a rank as `m * 2 ^ q`, and
`Format.nearest` gives the rank nearest to a quotient of naturals, a tie going to the even
significand. Products and quotients of such numbers are the exact ones, rounded so.
-/

namespace VirtualPeople

/-- A binary interchange format: the length of a significand in bits, the exponent of the last
place of the smallest numbers, and the rank of infinity. -/
structure Format where
  bits : Nat
  lowest : Int
  infinity : Nat

namespace Format

def double : Format := ⟨53, -1074, 2047 <<< 52⟩

def single : Format := ⟨24, -149, 255 <<< 23⟩

/-- The number of a rank, as a significand and the exponent of two that scales it. -/
def value (f : Format) (rank : Nat) : Nat × Int :=
  let step := 1 <<< (f.bits - 1)
  if rank < step then (rank, f.lowest)
  else (step + rank % step, f.lowest + (rank / step : Nat) - 1)

/-- A quotient rounded to a natural, a half going to the even one. -/
def roundEven (num den : Nat) : Nat :=
  let floor := num / den
  let rest := num % den
  if 2 * rest > den ∨ 2 * rest = den ∧ floor % 2 = 1 then floor + 1 else floor

/-- The quotient `num / den` divided by `2 ^ q`, still as a quotient. -/
def scaled (num den : Nat) : Int → Nat × Nat
  | .ofNat q => (num, den <<< q)
  | .negSucc q => (num <<< (q + 1), den)

/-- The exponent of the last place of the numbers of `f` around `num / den`. -/
def place (f : Format) (num den : Nat) : Int :=
  let q := max f.lowest ((num.log2 : Int) - den.log2 - f.bits)
  let (n, d) := scaled num den q
  if n / d < 1 <<< f.bits then q else q + 1

/-- The rank nearest to `num / den`; what is too large goes to infinity. A significand that rounds
up to the next power of two carries into the exponent. -/
def nearest (f : Format) (num den : Nat) : Nat :=
  if num = 0 then 0
  else
    let q := f.place num den
    let (n, d) := scaled num den q
    min f.infinity ((q - f.lowest).toNat <<< (f.bits - 1) + roundEven n d)

/-- The rank nearest to `num / den * 2 ^ q`. -/
def nearestScaled (f : Format) (num den : Nat) (q : Int) : Nat :=
  let (n, d) := scaled num den (-q)
  f.nearest n d

/-- The rank of a product of two finite numbers, rounded once. -/
def product (f : Format) (a b : Nat) : Nat :=
  let (m, p) := f.value a
  let (n, q) := f.value b
  f.nearestScaled (m * n) 1 (p + q)

/-- The rank of a quotient of two finite numbers, the second not zero, rounded once. -/
def ratio (f : Format) (a b : Nat) : Nat :=
  let (m, p) := f.value a
  let (n, q) := f.value b
  f.nearestScaled m n (p - q)

end Format

/-- The rank of a double's magnitude. -/
def rankOf (x : Float) : Nat := x.toBits.toNat % 1 <<< 63

/-- Whether the sign bit is set; a negative zero has it. -/
def isNegative (x : Float) : Bool := 1 <<< 63 ≤ x.toBits.toNat

/-- Neither infinite nor not a number. -/
def isFinite (x : Float) : Bool := rankOf x < Format.double.infinity

/-- The double of a sign and a rank. -/
def doubleOf (negative : Bool) (rank : Nat) : Float :=
  Float.ofBits (.ofNat ((if negative then 1 <<< 63 else 0) + rank))

/-- The single of a sign and a rank. -/
def singleOf (negative : Bool) (rank : Nat) : Float32 :=
  Float32.ofBits (.ofNat ((if negative then 1 <<< 31 else 0) + rank))

def singleRank (x : Float32) : Nat := x.toBits.toNat % 1 <<< 31

def isNegativeSingle (x : Float32) : Bool := 1 <<< 31 ≤ x.toBits.toNat

/-- The rank in `g` nearest to the number of a rank in `f`; infinity and what is beyond it keep
their distance from infinity. -/
def Format.convert (f g : Format) (rank : Nat) : Nat :=
  if f.infinity ≤ rank then g.infinity + (rank - f.infinity)
  else
    let (m, q) := f.value rank
    g.nearestScaled m 1 q

/-- A single as a double, which holds every single exactly. -/
def widen (x : Float32) : Float :=
  if Format.single.infinity < singleRank x then 0.0 / 0.0
  else doubleOf (isNegativeSingle x) (Format.single.convert .double (singleRank x))

/-- The single nearest to a double. -/
def narrow (x : Float) : Float32 :=
  if Format.double.infinity < rankOf x then 0.0 / 0.0
  else singleOf (isNegative x) (Format.double.convert .single (rankOf x))

/-- The single nearest to an integer. -/
def singleOfInt (i : Int) : Float32 :=
  singleOf (i < 0) (Format.single.nearest i.natAbs 1)

/-- The double nearest to an integer. -/
def doubleOfInt (i : Int) : Float :=
  doubleOf (i < 0) (Format.double.nearest i.natAbs 1)

end VirtualPeople
