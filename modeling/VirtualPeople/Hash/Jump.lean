import VirtualPeople.Number.Binary

/-!
# Jump consistent hashing

A key takes a sequence of jumps to ever larger buckets, and its bucket among the first `n` is the
last one below `n`. The sequence depends on the key alone, so with more buckets a key stays or
goes to a new one. A jump goes as far as double arithmetic says: one quotient and one product,
both rounded to 53 bits, which are computed here as they are defined.
-/

namespace VirtualPeople.Jump

/-- A positive quotient rounded to 53 significant bits, as a significand and an exponent of two. -/
def rounded (num den : Nat) : Nat × Int :=
  let q := (num.log2 : Int) - den.log2 - 53
  let (n, d) := Format.scaled num den q
  if n / d < 1 <<< 53 then (Format.roundEven n d, q)
  else
    let (n, d) := Format.scaled num den (q + 1)
    (Format.roundEven n d, q + 1)

/-- The whole part of `m * 2 ^ q`. -/
def wholePart : Nat × Int → Nat
  | (m, .ofNat q) => m <<< q
  | (m, .negSucc q) => m >>> (q + 1)

/-- The next state of the key. -/
def advance (key : UInt64) : UInt64 := key * 2862933555777941757 + 1

/-- The bucket after `bucket`, for the state of the key that it is drawn from. -/
def next (bucket : Nat) (key : UInt64) : Nat :=
  let divisor := (key >>> 33).toNat + 1
  match rounded (1 <<< 31) divisor with
  | (m, .ofNat q) => wholePart (rounded ((bucket + 1) * m <<< q) 1)
  | (m, .negSucc q) => wholePart (rounded ((bucket + 1) * m) (1 <<< (q + 1)))

/-- The last bucket below `count` on the way from `bucket`; each jump goes up, so `fuel` at least
`count - bucket` is enough. -/
def walk (count : Nat) : Nat → Nat → UInt64 → Nat
  | 0, bucket, _ => bucket
  | fuel + 1, bucket, key =>
    let key := advance key
    let further := next bucket key
    if further < count then walk count fuel further key else bucket

end Jump

/-- The bucket of a key among `count` of them, and -1 if there is none. -/
def jumpHash (key : UInt64) (count : Int) : Int :=
  if count ≤ 0 then -1 else Jump.walk count.toNat count.toNat 0 key

end VirtualPeople
