/-!
# BLAKE3

The unkeyed 256-bit BLAKE3 digest of a string of bytes: chunks of 1024 bytes are compressed block
by block, and the chunks are the leaves of a tree whose left part is always the largest full one.
-/

namespace VirtualPeople.Blake3

/-- Eight words that one compression hands to the next. -/
abbrev Chain := Array UInt32

/-- The first eight prime square roots' fractions. -/
def start : Chain :=
  #[0x6A09E667, 0xBB67AE85, 0x3C6EF372, 0xA54FF53A, 0x510E527F, 0x9B05688C, 0x1F83D9AB, 0x5BE0CD19]

/-- Where each word of a block goes for the next round. -/
def shuffle : Array Nat := #[2, 6, 3, 10, 7, 0, 4, 13, 1, 11, 12, 5, 9, 14, 15, 8]

def chunkStart : UInt32 := 1
def chunkEnd : UInt32 := 2
def parent : UInt32 := 4
def root : UInt32 := 8

@[inline] def rotate (x n : UInt32) : UInt32 := (x >>> n) ||| (x <<< (32 - n))

@[inline] def at0 (a : Array UInt32) (i : Nat) : UInt32 := a.getD i 0

/-- Mixes two words of a block into four words of the state. -/
def quarter (v : Array UInt32) (a b c d : Nat) (x y : UInt32) : Array UInt32 :=
  let va := at0 v a + at0 v b + x
  let vd := rotate (at0 v d ^^^ va) 16
  let vc := at0 v c + vd
  let vb := rotate (at0 v b ^^^ vc) 12
  let va := va + vb + y
  let vd := rotate (vd ^^^ va) 8
  let vc := vc + vd
  let vb := rotate (vb ^^^ vc) 7
  (((v.setIfInBounds a va).setIfInBounds b vb).setIfInBounds c vc).setIfInBounds d vd

/-- Columns, then diagonals. -/
def round (v m : Array UInt32) : Array UInt32 :=
  let v := quarter v 0 4 8 12 (at0 m 0) (at0 m 1)
  let v := quarter v 1 5 9 13 (at0 m 2) (at0 m 3)
  let v := quarter v 2 6 10 14 (at0 m 4) (at0 m 5)
  let v := quarter v 3 7 11 15 (at0 m 6) (at0 m 7)
  let v := quarter v 0 5 10 15 (at0 m 8) (at0 m 9)
  let v := quarter v 1 6 11 12 (at0 m 10) (at0 m 11)
  let v := quarter v 2 7 8 13 (at0 m 12) (at0 m 13)
  quarter v 3 4 9 14 (at0 m 14) (at0 m 15)

def rounds : Nat → Array UInt32 → Array UInt32 → Array UInt32
  | 0, v, _ => v
  | n + 1, v, m => rounds n (round v m) (shuffle.map (at0 m))

/-- One block of up to 64 bytes, given as sixteen words, onto a chain. -/
def compress (chain : Chain) (block : Array UInt32) (counter : UInt64) (length flags : UInt32) :
    Chain :=
  let v := chain ++ start.extract 0 4 ++
    #[counter.toUInt32, (counter >>> 32).toUInt32, length, flags]
  let v := rounds 7 v block
  (Array.range 8).map fun i => at0 v i ^^^ at0 v (i + 8)

/-- The little-endian word at a place; zero behind the end. -/
def word (s : ByteArray) (limit i : Nat) : UInt32 :=
  let byte (j : Nat) : UInt32 :=
    if h : j < s.size then (if j < limit then s[j].toUInt32 else 0) else 0
  byte i ||| (byte (i + 1) <<< 8) ||| (byte (i + 2) <<< 16) ||| (byte (i + 3) <<< 24)

/-- The blocks of a chunk from place `i` up to place `limit`, `flags` for the last one only. -/
def chunkBlocks (s : ByteArray) (limit : Nat) (counter : UInt64) (flags : UInt32) :
    Nat → Nat → UInt32 → Chain → Chain
  | 0, _, _, chain => chain
  | n + 1, i, first, chain =>
    let block := (Array.range 16).map fun k => word s limit (i + 4 * k)
    let last := limit ≤ i + 64
    let length := min 64 (limit - i)
    let flags' := first ||| (if last then chunkEnd ||| flags else 0)
    let chain := compress chain block counter length.toUInt32 flags'
    if last then chain else chunkBlocks s limit counter flags n (i + 64) 0 chain

/-- The chain of the `index`-th chunk. -/
def chunk (s : ByteArray) (index : Nat) (flags : UInt32) : Chain :=
  let i := 1024 * index
  chunkBlocks s (min s.size (i + 1024)) index.toUInt64 flags 16 i chunkStart start

/-- The chain of `count` chunks from the `index`-th on. -/
def tree (s : ByteArray) (flags : UInt32) : Nat → Nat → Nat → Chain
  | 0, index, _ => chunk s index flags
  | fuel + 1, index, count =>
    if count ≤ 1 then chunk s index flags
    else
      let left := 1 <<< (count - 1).log2
      let block := tree s 0 fuel index left ++ tree s 0 fuel (index + left) (count - left)
      compress start block 0 64 (parent ||| flags)

/-- The eight words of the digest. -/
def digest (s : ByteArray) : Chain :=
  let count := max 1 ((s.size + 1023) / 1024)
  tree s root count.log2.succ 0 count

def hexByte (n : Nat) : List Char :=
  [(Nat.toDigits 16 (n / 16)).headD '0', (Nat.toDigits 16 (n % 16)).headD '0']

def hexWord (w : UInt32) : List Char :=
  hexByte (w.toNat % 256) ++ hexByte (w.toNat / 256 % 256) ++ hexByte (w.toNat / 65536 % 256) ++
    hexByte (w.toNat / 16777216)

end Blake3

/-- The BLAKE3 digest of a text in UTF-8, in hexadecimal digits. -/
def blake3 (s : String) : String :=
  String.ofList ((Blake3.digest s.toUTF8).toList.flatMap Blake3.hexWord)

end VirtualPeople
