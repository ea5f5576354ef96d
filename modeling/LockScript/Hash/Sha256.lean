import LockScript.Bytes

/-! # SHA-256

The message is padded to whole blocks of 64 bytes, each block is expanded to a schedule of 64 words,
and the chaining state absorbs the schedule in 64 rounds.
-/

namespace LockScript.Sha256

/-- The 64 round constants. -/
def roundConstants : List UInt32 := [
  0x428a2f98, 0x71374491, 0xb5c0fbcf, 0xe9b5dba5, 0x3956c25b, 0x59f111f1, 0x923f82a4, 0xab1c5ed5,
  0xd807aa98, 0x12835b01, 0x243185be, 0x550c7dc3, 0x72be5d74, 0x80deb1fe, 0x9bdc06a7, 0xc19bf174,
  0xe49b69c1, 0xefbe4786, 0x0fc19dc6, 0x240ca1cc, 0x2de92c6f, 0x4a7484aa, 0x5cb0a9dc, 0x76f988da,
  0x983e5152, 0xa831c66d, 0xb00327c8, 0xbf597fc7, 0xc6e00bf3, 0xd5a79147, 0x06ca6351, 0x14292967,
  0x27b70a85, 0x2e1b2138, 0x4d2c6dfc, 0x53380d13, 0x650a7354, 0x766a0abb, 0x81c2c92e, 0x92722c85,
  0xa2bfe8a1, 0xa81a664b, 0xc24b8b70, 0xc76c51a3, 0xd192e819, 0xd6990624, 0xf40e3585, 0x106aa070,
  0x19a4c116, 0x1e376c08, 0x2748774c, 0x34b0bcb5, 0x391c0cb3, 0x4ed8aa4a, 0x5b9cca4f, 0x682e6ff3,
  0x748f82ee, 0x78a5636f, 0x84c87814, 0x8cc70208, 0x90befffa, 0xa4506ceb, 0xbef9a3f7, 0xc67178f2]

/-- The eight words of the chaining state. -/
structure State where
  a : UInt32
  b : UInt32
  c : UInt32
  d : UInt32
  e : UInt32
  f : UInt32
  g : UInt32
  h : UInt32

/-- The state before the first block. -/
def State.initial : State :=
  ⟨0x6a09e667, 0xbb67ae85, 0x3c6ef372, 0xa54ff53a, 0x510e527f, 0x9b05688c, 0x1f83d9ab, 0x5be0cd19⟩

/-- Rotates a word to the right by `places` bits, for `0 < places < 32`. -/
def rotateRight (word places : UInt32) : UInt32 :=
  (word >>> places) ||| (word <<< (32 - places))

/-- Absorbs one schedule word. -/
def State.round (s : State) (word constant : UInt32) : State :=
  let choose := (s.e &&& s.f) ^^^ ((~~~ s.e) &&& s.g)
  let majority := (s.a &&& s.b) ^^^ (s.a &&& s.c) ^^^ (s.b &&& s.c)
  let sumE := rotateRight s.e 6 ^^^ rotateRight s.e 11 ^^^ rotateRight s.e 25
  let sumA := rotateRight s.a 2 ^^^ rotateRight s.a 13 ^^^ rotateRight s.a 22
  let first := s.h + sumE + choose + constant + word
  ⟨first + sumA + majority, s.a, s.b, s.c, s.d + first, s.e, s.f, s.g⟩

/-- The big-endian words of the bytes, four to a word. -/
def wordsOf : Bytes → List UInt32
  | a :: b :: c :: d :: rest =>
    ((a.toUInt32 <<< 24) ||| (b.toUInt32 <<< 16) ||| (c.toUInt32 <<< 8) ||| d.toUInt32) :: wordsOf rest
  | _ => []

/-- The next schedule word, from the words 16, 15, 7 and 2 places back. The latest word comes first. -/
def nextWord (latest : List UInt32) : UInt32 :=
  let back (places : Nat) := latest.getD (places - 1) 0
  let early := back 15
  let late := back 2
  back 16 + (rotateRight early 7 ^^^ rotateRight early 18 ^^^ (early >>> 3)) + back 7 +
    (rotateRight late 17 ^^^ rotateRight late 19 ^^^ (late >>> 10))

/-- The 64 schedule words of a block. -/
def schedule (block : Bytes) : List UInt32 :=
  ((List.range 48).foldl (fun latest _ => nextWord latest :: latest) (wordsOf block).reverse).reverse

/-- Absorbs a block of 64 bytes. -/
def State.absorb (s : State) (block : Bytes) : State :=
  let t := ((schedule block).zip roundConstants).foldl
    (fun state entry => state.round entry.1 entry.2) s
  ⟨s.a + t.a, s.b + t.b, s.c + t.c, s.d + t.d, s.e + t.e, s.f + t.f, s.g + t.g, s.h + t.h⟩

/-- Absorbs the given number of blocks, one after the other. -/
def State.absorbBlocks (s : State) : Nat → Bytes → State
  | 0, _ => s
  | n + 1, bytes => (s.absorb (bytes.take 64)).absorbBlocks n (bytes.drop 64)

/-- The message, a one bit, zeros up to a block boundary less eight bytes, and the length in bits.
-/
def pad (message : Bytes) : Bytes :=
  let zeros := (119 - message.length % 64) % 64
  message ++ 0x80 :: List.replicate zeros 0 ++ Bytes.bigEndian 8 (8 * message.length)

/-- The chaining state as bytes, most significant byte of each word first. -/
def State.bytes (s : State) : Vector UInt8 32 :=
  let words : Vector UInt32 8 := #v[s.a, s.b, s.c, s.d, s.e, s.f, s.g, s.h]
  Vector.ofFn fun i : Fin 32 =>
    (words.get ⟨i.val / 4, by omega⟩ >>> UInt32.ofNat (24 - 8 * (i.val % 4))).toUInt8

/-- The SHA-256 digest of a message. -/
def hash (message : Bytes) : Vector UInt8 32 :=
  let padded := pad message
  (State.initial.absorbBlocks (padded.length / 64) padded).bytes

end LockScript.Sha256
