import LockScript.Key
import LockScript.LockTime

/-! # Material

What a witness can be built from: signatures, secrets, and the lock times of the transaction.
-/

namespace LockScript

/-- The secret behind a hashlock, which always has 32 bytes. -/
abbrev Secret := Vector UInt8 32

/-- The signatures and secrets at hand, and the locks that the transaction meets. -/
structure Material (κ : Type) where
  ecdsa : κ → Option Bytes
  /-- Schnorr signatures commit to the leaf that they are made for. -/
  schnorr : κ → LeafHash → Option Bytes
  secret : Digest → Option Secret
  meetsOlder : RelativeLock → Bool
  meetsAfter : AbsoluteLock → Bool

namespace Material

variable {κ α β : Type}

/-- Nothing at all. -/
def none : Material κ where
  ecdsa _ := Option.none
  schnorr _ _ := Option.none
  secret _ := Option.none
  meetsOlder _ := false
  meetsAfter _ := false

instance : Inhabited (Material κ) := ⟨none⟩

/-- The last entry for a key. -/
def lookUp [BEq α] (entries : List (α × β)) (key : α) : Option β :=
  entries.reverse.lookup key

/-- ECDSA signatures by key. -/
def ofEcdsa [DecidableEq κ] (entries : List (κ × Bytes)) : Material κ :=
  { none with ecdsa := lookUp entries }

/-- Schnorr signatures by key and leaf. -/
def ofSchnorr [DecidableEq κ] (entries : List ((κ × LeafHash) × Bytes)) : Material κ :=
  { none with schnorr := fun key leaf => lookUp entries (key, leaf) }

/-- Secrets by digest. -/
def ofSecrets (entries : List (Digest × Secret)) : Material κ :=
  { none with secret := lookUp entries }

/-- The sequence of the spending input. -/
def ofSequence (sequence : Sequence) : Material κ :=
  { none with meetsOlder := (·.metBy sequence) }

/-- The lock time of the spending transaction. -/
def ofLockTime (lockTime : Nat) : Material κ :=
  { none with meetsAfter := (·.metBy lockTime) }

/-- What either holds; the first one that has an answer gives it. -/
def orElse (first second : Material κ) : Material κ where
  ecdsa key := (first.ecdsa key).or (second.ecdsa key)
  schnorr key leaf := (first.schnorr key leaf).or (second.schnorr key leaf)
  secret digest := (first.secret digest).or (second.secret digest)
  meetsOlder lock := first.meetsOlder lock || second.meetsOlder lock
  meetsAfter lock := first.meetsAfter lock || second.meetsAfter lock

/-- What any of the listed ones holds. -/
def firstOf (materials : List (Material κ)) : Material κ :=
  materials.foldr orElse none

/-- The signature by a key under a scheme. -/
def signature? (material : Material κ) (scheme : SignatureScheme) (leaf : LeafHash) (key : κ) :
    Option Bytes :=
  match scheme with
  | .ecdsa => material.ecdsa key
  | .schnorr => material.schnorr key leaf

end Material

end LockScript
