import LockScript.Hash.Sha256
import LockScript.Hash.Ripemd160

/-! # Digests

A hashlock names the digest of a secret under one of four hash functions. Trees are generic in the
digests at their leaves: a concrete `Digest` carries the bytes that a script compares with, while a
`NamedDigest` is enough for every analysis that never builds a script.
-/

namespace LockScript

/-- The four hash functions of Script, in the order in which fragments that use them are sorted. -/
inductive HashKind where
  | sha256
  | hash256
  | ripemd160
  | hash160
  deriving DecidableEq, Ord, Repr

namespace HashKind

/-- The number of bytes in a digest. -/
def width : HashKind → Nat
  | sha256 | hash256 => 32
  | ripemd160 | hash160 => 20

/-- The digest of a message; `hash256` is SHA-256 twice, `hash160` is RIPEMD-160 of SHA-256. -/
def hash (kind : HashKind) (message : Bytes) : Bytes :=
  match kind with
  | sha256 => (Sha256.hash message).toList
  | hash256 => (Sha256.hash (Sha256.hash message).toList).toList
  | ripemd160 => (Ripemd160.hash message).toList
  | hash160 => (Ripemd160.hash (Sha256.hash message).toList).toList

theorem length_hash (kind : HashKind) (message : Bytes) :
    (kind.hash message).length = kind.width := by
  cases kind <;> simp [hash, width]

end HashKind

/-- What a tree needs to know of the digests at its leaves. -/
class DigestLike (δ : Type) extends Ord δ where
  /-- The hash function that the digest belongs to. -/
  kind : δ → HashKind
  /-- The digest as it is written between the parentheses of its fragment. -/
  text : δ → String

/-- A digest of the width that its hash function gives. -/
structure Digest where
  kind : HashKind
  bytes : Bytes
  width_eq : bytes.length = kind.width
  deriving DecidableEq

namespace Digest

/-- The digest of a message. -/
def ofMessage (kind : HashKind) (message : Bytes) : Digest :=
  ⟨kind, kind.hash message, kind.length_hash message⟩

/-- Takes bytes for a digest if they have the width of its hash function. -/
def ofBytes? (kind : HashKind) (bytes : Bytes) : Option Digest :=
  if exact : bytes.length = kind.width then some ⟨kind, bytes, exact⟩ else none

/-- A `hash256` digest is written with its last byte first, the others in order. -/
def text (digest : Digest) : String :=
  match digest.kind with
  | .hash256 => Bytes.hex digest.bytes.reverse
  | _ => Bytes.hex digest.bytes

/-- Digests of one function are ordered as byte strings. -/
def order (a b : Digest) : Ordering :=
  (compare a.kind b.kind).then (compare a.bytes b.bytes)

instance : DigestLike Digest where
  compare := order
  kind := kind
  text := text

end Digest

/-- A digest of which only a name is known. -/
structure NamedDigest where
  kind : HashKind
  name : String
  deriving DecidableEq

namespace NamedDigest

/-- Names of one function are ordered as texts. -/
def order (a b : NamedDigest) : Ordering :=
  (compare a.kind b.kind).then (compare a.name b.name)

instance : DigestLike NamedDigest where
  compare := order
  kind := kind
  text := name

end NamedDigest

/-- A hash that is tagged with its purpose, so that no other use can produce the same input. -/
def taggedHash (tag : String) (message : Bytes) : Vector UInt8 32 :=
  let label := (Sha256.hash tag.toUTF8.toList).toList
  Sha256.hash (label ++ label ++ message)

/-- The commitment of a tapscript leaf, which signatures in that leaf sign. -/
abbrev LeafHash := Vector UInt8 32

namespace LeafHash

/-- The leaf version of tapscript. -/
def tapscriptVersion : UInt8 := 0xc0

/-- The leaf hash of a tapscript. -/
def ofScript (script : Bytes) : LeafHash :=
  taggedHash "TapLeaf" (tapscriptVersion :: Bytes.compactSize script.length ++ script)

/-- Stands in for the leaf hash outside of tapscript, where signatures commit to no leaf. -/
def zero : LeafHash := Vector.replicate 32 0

end LeafHash

end LockScript
