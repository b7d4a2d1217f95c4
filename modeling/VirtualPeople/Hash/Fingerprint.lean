/-!
# Fingerprints and variates

The 64-bit FarmHash fingerprint of a string of bytes, in wrapping arithmetic on little-endian
words. Strings of up to 64 bytes are read in one go, each range of lengths in its own way; longer
ones go through blocks of 64 bytes and end with the last 64.

A fingerprint is read as a uniform variate, and its negative logarithm as an exponential one of
rate one.
-/

namespace VirtualPeople.Fingerprint

def k0 : UInt64 := 0xc3a5c85c97cb3127
def k1 : UInt64 := 0xb492b66fbe98f273
def k2 : UInt64 := 0x9ae16a3b2f90404f

/-- Rotates to the right by fewer than 64 places, and at least one. -/
@[inline] def rotate (x n : UInt64) : UInt64 := (x >>> n) ||| (x <<< (64 - n))

@[inline] def shiftMix (x : UInt64) : UInt64 := x ^^^ (x >>> 47)

/-- Two words into one, by a multiplier. -/
@[inline] def mix (u v m : UInt64) : UInt64 :=
  let a := shiftMix ((u ^^^ v) * m)
  let b := shiftMix ((v ^^^ a) * m)
  b * m

@[inline] def byte (s : ByteArray) (i : Nat) : UInt64 :=
  if h : i < s.size then s[i].toUInt64 else 0

/-- The four bytes from a place on. -/
def word32 (s : ByteArray) (i : Nat) : UInt64 :=
  byte s i ||| (byte s (i + 1) <<< 8) ||| (byte s (i + 2) <<< 16) ||| (byte s (i + 3) <<< 24)

/-- The eight bytes from a place on. -/
def word64 (s : ByteArray) (i : Nat) : UInt64 := word32 s i ||| (word32 s (i + 4) <<< 32)

def upTo3 (s : ByteArray) : UInt64 :=
  let n := s.size
  let a := byte s 0
  let b := byte s (n / 2)
  let c := byte s (n - 1)
  let y := a + (b <<< 8)
  let z := n.toUInt64 + (c <<< 2)
  shiftMix (y * k2 ^^^ z * k0) * k2

def upTo7 (s : ByteArray) : UInt64 :=
  let n := s.size.toUInt64
  mix (n + (word32 s 0 <<< 3)) (word32 s (s.size - 4)) (k2 + 2 * n)

def upTo16 (s : ByteArray) : UInt64 :=
  let m := k2 + 2 * s.size.toUInt64
  let a := word64 s 0 + k2
  let b := word64 s (s.size - 8)
  let c := rotate b 37 * m + a
  let d := (rotate a 25 + b) * m
  mix c d m

def upTo32 (s : ByteArray) : UInt64 :=
  let n := s.size
  let m := k2 + 2 * n.toUInt64
  let a := word64 s 0 * k1
  let b := word64 s 8
  let c := word64 s (n - 8) * m
  let d := word64 s (n - 16) * k2
  mix (rotate (a + b) 43 + rotate c 30 + d) (a + rotate (b + k2) 18 + c) m

def upTo64 (s : ByteArray) : UInt64 :=
  let n := s.size
  let m := k2 + 2 * n.toUInt64
  let a := word64 s 0 * k2
  let b := word64 s 8
  let c := word64 s (n - 8) * m
  let d := word64 s (n - 16) * k2
  let y := rotate (a + b) 43 + rotate c 30 + d
  let z := mix y (a + rotate (b + k2) 18 + c) m
  let e := word64 s 16 * m
  let f := word64 s 24
  let g := (y + word64 s (n - 32)) * m
  let h := (z + word64 s (n - 24)) * m
  mix (rotate (e + f) 43 + rotate g 30 + h) (e + rotate (f + a) 18 + g) m

/-- What is carried from block to block: three words and two pairs of them. -/
structure State where
  x : UInt64
  y : UInt64
  z : UInt64
  v : UInt64 × UInt64
  w : UInt64 × UInt64

/-- A pair of words from the 32 bytes at a place and two seeds. -/
def pair (s : ByteArray) (i : Nat) (a b : UInt64) : UInt64 × UInt64 :=
  let a := a + word64 s i
  let b := rotate (b + a + word64 s (i + 24)) 21
  let c := a
  let a := a + word64 s (i + 8) + word64 s (i + 16)
  let b := b + rotate a 44
  (a + word64 s (i + 24), b + c)

/-- One block of 64 bytes with multiplier `m`. In the last block the words that the pairs bring in
count nine times. -/
def block (s : ByteArray) (m times : UInt64) (i : Nat) (t : State) : State :=
  let x := rotate (t.x + t.y + t.v.1 + word64 s (i + 8)) 37 * m
  let y := rotate (t.y + t.v.2 + word64 s (i + 48)) 42 * m
  let x := x ^^^ (t.w.2 * times)
  let y := y + t.v.1 * times + word64 s (i + 40)
  let z := rotate (t.z + t.w.1) 33 * m
  let v := pair s i (t.v.2 * m) (x + t.w.1)
  let w := pair s (i + 32) (z + t.w.2) (y + word64 s (i + 16))
  ⟨z, y, x, v, w⟩

/-- The blocks from a place on, as many as there are. -/
def blocks (s : ByteArray) : Nat → Nat → State → State
  | 0, _, t => t
  | n + 1, i, t => blocks s n (i + 64) (block s k1 1 i t)

def long (s : ByteArray) : UInt64 :=
  let n := s.size
  let y : UInt64 := 2480279821605975764
  let start : State := ⟨81 * k2 + word64 s 0, y, shiftMix (y * k2 + 113) * k2, (0, 0), (0, 0)⟩
  let t := blocks s (n / 64) 0 start
  let m := k1 + ((t.z &&& 255) <<< 1)
  let w0 := t.w.1 + ((n - 1).toUInt64 &&& 63)
  let v0 := t.v.1 + w0
  let w0 := w0 + v0
  let t := block s m 9 (n - 64) { t with v := (v0, t.v.2), w := (w0, t.w.2) }
  mix (mix t.v.1 t.w.1 m + shiftMix t.y * k0 + t.z) (mix t.v.2 t.w.2 m + t.x) m

end Fingerprint

/-- The fingerprint of a string of bytes. -/
def fingerprintBytes (s : ByteArray) : UInt64 :=
  if s.size = 0 then Fingerprint.k2
  else if s.size ≤ 3 then Fingerprint.upTo3 s
  else if s.size ≤ 7 then Fingerprint.upTo7 s
  else if s.size ≤ 16 then Fingerprint.upTo16 s
  else if s.size ≤ 32 then Fingerprint.upTo32 s
  else if s.size ≤ 64 then Fingerprint.upTo64 s
  else Fingerprint.long s

/-- The fingerprint of a text in UTF-8. -/
def fingerprint (s : String) : UInt64 := fingerprintBytes s.toUTF8

/-- Between 0 and 1, both included, since the fingerprint is rounded to a double. -/
def uniform (s : String) : Float := (fingerprint s).toFloat / 18446744073709551616.0

/-- The exponential variate by a natural logarithm. -/
def exponentialBy (ln : Float → Float) (s : String) : Float := -ln (uniform s)

/-- Not negative; infinite where the uniform variate is 0. -/
def exponential : String → Float := exponentialBy Float.log

end VirtualPeople
