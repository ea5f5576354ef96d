import LockScript.Digest

/-! # Keys

Keys are byte strings here: their curve arithmetic is done elsewhere, and a key is trusted to be a
point of the curve. A tree may be built over any of four kinds of key, of which `KeyName` is enough
for every analysis that never builds a script.
-/

namespace LockScript

/-- What a tree needs to know of the keys at its leaves. -/
class KeyLike (κ : Type) extends Ord κ where
  /-- The key as it is written in a fragment. -/
  text : κ → String
  /-- Whether the key is serialized with both coordinates. -/
  isUncompressed : κ → Bool
  /-- Whether the key is an x coordinate alone. -/
  isXOnly : κ → Bool
  /-- The number of derivation paths that the key stands for; a concrete key has none. -/
  derivationPaths : κ → Nat

/-- A public key in its compressed or its uncompressed serialization. -/
inductive FullKey where
  | compressed (odd : Bool) (x : Vector UInt8 32)
  | uncompressed (x y : Vector UInt8 32)
  deriving DecidableEq

/-- A curve point, which is always serialized in compressed form. -/
structure PointKey where
  odd : Bool
  x : Vector UInt8 32
  deriving DecidableEq

/-- The x coordinate of a curve point, standing for the point with the even y coordinate. -/
structure XOnlyKey where
  x : Vector UInt8 32
  deriving DecidableEq

/-- A key of which only a name is known. -/
structure KeyName where
  name : String
  deriving DecidableEq

/-- The compressed serialization: the parity of y, then x. -/
def compressedPoint (odd : Bool) (x : Vector UInt8 32) : Bytes :=
  (if odd then 3 else 2) :: x.toList

namespace FullKey

/-- Whether both coordinates are serialized. -/
def isUncompressed : FullKey → Bool
  | compressed _ _ => false
  | uncompressed _ _ => true

/-- The key as it is pushed by a script: 33 bytes, or 65 when uncompressed. -/
def bytes : FullKey → Bytes
  | compressed odd x => compressedPoint odd x
  | uncompressed x y => 4 :: x.toList ++ y.toList

/-- The point that the key stands for, in compressed form. -/
def point : FullKey → Bytes
  | compressed odd x => compressedPoint odd x
  | uncompressed x y => compressedPoint ((y[31]).toNat % 2 == 1) x

/-- The x coordinate. -/
def xOnly : FullKey → XOnlyKey
  | compressed _ x => ⟨x⟩
  | uncompressed x _ => ⟨x⟩

/-- Reads a serialized key: 02 or 03 and one coordinate, or 04 and two. -/
def ofBytes? : Bytes → Option FullKey
  | 2 :: rest => (Bytes.ofWidth? 32 rest).map (compressed false)
  | 3 :: rest => (Bytes.ofWidth? 32 rest).map (compressed true)
  | 4 :: rest => do
    let x ← Bytes.ofWidth? 32 (rest.take 32)
    let y ← Bytes.ofWidth? 32 (rest.drop 32)
    return uncompressed x y
  | _ => none

/-- Uncompressed keys come first; within a form, keys are ordered by their points. -/
def order (a b : FullKey) : Ordering :=
  (compare (!a.isUncompressed) (!b.isUncompressed)).then (compare a.point b.point)

instance : KeyLike FullKey where
  compare := order
  text key := Bytes.hex key.bytes
  isUncompressed := isUncompressed
  isXOnly _ := false
  derivationPaths _ := 0

end FullKey

namespace PointKey

/-- The 33 bytes of the key. -/
def bytes (key : PointKey) : Bytes :=
  compressedPoint key.odd key.x

/-- Reads 02 or 03 and one coordinate. -/
def ofBytes? : Bytes → Option PointKey
  | 2 :: rest => (Bytes.ofWidth? 32 rest).map (⟨false, ·⟩)
  | 3 :: rest => (Bytes.ofWidth? 32 rest).map (⟨true, ·⟩)
  | _ => none

instance : KeyLike PointKey where
  compare a b := compare a.bytes b.bytes
  text key := Bytes.hex key.bytes
  isUncompressed _ := false
  isXOnly _ := false
  derivationPaths _ := 0

end PointKey

namespace XOnlyKey

/-- The 32 bytes of the key. -/
def bytes (key : XOnlyKey) : Bytes :=
  key.x.toList

/-- Reads one coordinate. -/
def ofBytes? (bytes : Bytes) : Option XOnlyKey :=
  (Bytes.ofWidth? 32 bytes).map (⟨·⟩)

instance : KeyLike XOnlyKey where
  compare a b := compare a.bytes b.bytes
  text key := Bytes.hex key.bytes
  isUncompressed _ := false
  isXOnly _ := true
  derivationPaths _ := 0

end XOnlyKey

namespace KeyName

instance : KeyLike KeyName where
  compare a b := compare a.name b.name
  text := name
  isUncompressed _ := false
  isXOnly _ := false
  derivationPaths _ := 0

end KeyName

/-- Which signature scheme a script checks. -/
inductive SignatureScheme where
  | ecdsa
  | schnorr
  deriving DecidableEq, Repr

/-- A key that can be put into a script. -/
class PublicKey (κ : Type) extends KeyLike κ where
  /-- The key that ECDSA signatures verify under. -/
  toFull : κ → FullKey
  /-- The key that Schnorr signatures verify under. -/
  toXOnly : κ → XOnlyKey

instance : PublicKey FullKey where
  toFull := id
  toXOnly := FullKey.xOnly

instance : PublicKey PointKey where
  toFull key := .compressed key.odd key.x
  toXOnly key := ⟨key.x⟩

instance : PublicKey XOnlyKey where
  toFull key := .compressed false key.x
  toXOnly := id

/-- The bytes that a script of the given scheme pushes for a key. -/
def PublicKey.pushed {κ : Type} [PublicKey κ] (scheme : SignatureScheme) (key : κ) : Bytes :=
  match scheme with
  | .ecdsa => (toFull key).bytes
  | .schnorr => (toXOnly key).bytes

/-- The key hash that a script of the given scheme compares with. -/
def PublicKey.hash {κ : Type} [PublicKey κ] (scheme : SignatureScheme) (key : κ) : Bytes :=
  HashKind.hash .hash160 (PublicKey.pushed scheme key)

end LockScript
