import LockScript.Bytes

/-! # RIPEMD-160

Two lines of 80 steps run over the sixteen words of each 64-byte block, with different word orders,
shifts and constants, and are then added crosswise into the chaining state.
-/

namespace LockScript.Ripemd160

/-- The word that the left line reads in each step. -/
def leftOrder : List Nat := [
  0, 1, 2, 3, 4, 5, 6, 7, 8, 9, 10, 11, 12, 13, 14, 15,
  7, 4, 13, 1, 10, 6, 15, 3, 12, 0, 9, 5, 2, 14, 11, 8,
  3, 10, 14, 4, 9, 15, 8, 1, 2, 7, 0, 6, 13, 11, 5, 12,
  1, 9, 11, 10, 0, 8, 12, 4, 13, 3, 7, 15, 14, 5, 6, 2,
  4, 0, 5, 9, 7, 12, 2, 10, 14, 1, 3, 8, 11, 6, 15, 13]

/-- The word that the right line reads in each step. -/
def rightOrder : List Nat := [
  5, 14, 7, 0, 9, 2, 11, 4, 13, 6, 15, 8, 1, 10, 3, 12,
  6, 11, 3, 7, 0, 13, 5, 10, 14, 15, 8, 12, 4, 9, 1, 2,
  15, 5, 1, 3, 7, 14, 6, 9, 11, 8, 12, 2, 10, 0, 4, 13,
  8, 6, 4, 1, 3, 11, 15, 0, 5, 12, 2, 13, 9, 7, 10, 14,
  12, 15, 10, 4, 1, 5, 8, 7, 6, 2, 13, 14, 0, 3, 9, 11]

/-- The rotation of each step of the left line. -/
def leftShifts : List UInt32 := [
  11, 14, 15, 12, 5, 8, 7, 9, 11, 13, 14, 15, 6, 7, 9, 8,
  7, 6, 8, 13, 11, 9, 7, 15, 7, 12, 15, 9, 11, 7, 13, 12,
  11, 13, 6, 7, 14, 9, 13, 15, 14, 8, 13, 6, 5, 12, 7, 5,
  11, 12, 14, 15, 14, 15, 9, 8, 9, 14, 5, 6, 8, 6, 5, 12,
  9, 15, 5, 11, 6, 8, 13, 12, 5, 12, 13, 14, 11, 8, 5, 6]

/-- The rotation of each step of the right line. -/
def rightShifts : List UInt32 := [
  8, 9, 9, 11, 13, 15, 15, 5, 7, 7, 8, 11, 14, 14, 12, 6,
  9, 13, 15, 7, 12, 8, 9, 11, 7, 7, 12, 7, 6, 15, 13, 11,
  9, 7, 15, 11, 8, 6, 6, 14, 12, 13, 5, 14, 13, 13, 7, 5,
  15, 5, 8, 11, 14, 14, 6, 14, 6, 9, 12, 9, 12, 5, 15, 8,
  8, 5, 12, 9, 12, 5, 14, 6, 8, 13, 6, 5, 15, 13, 11, 11]

/-- The constant of each group of sixteen steps of the left line. -/
def leftConstants : List UInt32 := [0, 0x5a827999, 0x6ed9eba1, 0x8f1bbcdc, 0xa953fd4e]

/-- The constant of each group of sixteen steps of the right line. -/
def rightConstants : List UInt32 := [0x50a28be6, 0x5c4dd124, 0x6d703ef3, 0x7a6d76e9, 0]

/-- The five bitwise functions, one for each group of sixteen steps of the left line. -/
def mix (group : Nat) (x y z : UInt32) : UInt32 :=
  match group with
  | 0 => x ^^^ y ^^^ z
  | 1 => (x &&& y) ||| ((~~~ x) &&& z)
  | 2 => (x ||| (~~~ y)) ^^^ z
  | 3 => (x &&& z) ||| (y &&& (~~~ z))
  | _ => x ^^^ (y ||| (~~~ z))

/-- The five words of the chaining state, and of each line. -/
structure State where
  a : UInt32
  b : UInt32
  c : UInt32
  d : UInt32
  e : UInt32

/-- The state before the first block. -/
def State.initial : State :=
  ⟨0x67452301, 0xefcdab89, 0x98badcfe, 0x10325476, 0xc3d2e1f0⟩

/-- Rotates a word to the left by `places` bits, for `0 < places < 32`. -/
def rotateLeft (word places : UInt32) : UInt32 :=
  (word <<< places) ||| (word >>> (32 - places))

/-- One step of a line. -/
def State.step (s : State) (mixed word constant shift : UInt32) : State :=
  ⟨s.e, rotateLeft (s.a + mixed + word + constant) shift + s.e, s.b, rotateLeft s.c 10, s.d⟩

/-- The little-endian words of the bytes, four to a word. -/
def wordsOf : Bytes → List UInt32
  | a :: b :: c :: d :: rest =>
    (a.toUInt32 ||| (b.toUInt32 <<< 8) ||| (c.toUInt32 <<< 16) ||| (d.toUInt32 <<< 24)) :: wordsOf rest
  | _ => []

/-- The left line; its groups use the five functions in order. -/
def leftLine (start : State) (words : List UInt32) : State :=
  (List.zip leftOrder leftShifts).zipIdx.foldl (fun s ((place, shift), i) =>
    s.step (mix (i / 16) s.b s.c s.d) (words.getD place 0) (leftConstants.getD (i / 16) 0) shift) start

/-- The right line; its groups use the five functions in reverse. -/
def rightLine (start : State) (words : List UInt32) : State :=
  (List.zip rightOrder rightShifts).zipIdx.foldl (fun s ((place, shift), i) =>
    s.step (mix (4 - i / 16) s.b s.c s.d) (words.getD place 0) (rightConstants.getD (i / 16) 0) shift)
    start

/-- Absorbs a block of 64 bytes. -/
def State.absorb (s : State) (block : Bytes) : State :=
  let left := leftLine s (wordsOf block)
  let right := rightLine s (wordsOf block)
  ⟨s.b + left.c + right.d, s.c + left.d + right.e, s.d + left.e + right.a, s.e + left.a + right.b,
    s.a + left.b + right.c⟩

/-- Absorbs the given number of blocks, one after the other. -/
def State.absorbBlocks (s : State) : Nat → Bytes → State
  | 0, _ => s
  | n + 1, bytes => (s.absorb (bytes.take 64)).absorbBlocks n (bytes.drop 64)

/-- The message, a one bit, zeros up to a block boundary less eight bytes, and the length in bits.
-/
def pad (message : Bytes) : Bytes :=
  let zeros := (119 - message.length % 64) % 64
  message ++ 0x80 :: List.replicate zeros 0 ++ Bytes.littleEndian 8 (8 * message.length)

/-- The chaining state as bytes, least significant byte of each word first. -/
def State.bytes (s : State) : Vector UInt8 20 :=
  let words : Vector UInt32 5 := #v[s.a, s.b, s.c, s.d, s.e]
  Vector.ofFn fun i : Fin 20 =>
    (words.get ⟨i.val / 4, by omega⟩ >>> UInt32.ofNat (8 * (i.val % 4))).toUInt8

/-- The RIPEMD-160 digest of a message. -/
def hash (message : Bytes) : Vector UInt8 20 :=
  let padded := pad message
  (State.initial.absorbBlocks (padded.length / 64) padded).bytes

end LockScript.Ripemd160
