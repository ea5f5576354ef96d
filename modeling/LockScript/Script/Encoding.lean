import LockScript.Condition
import LockScript.Script.Instruction

/-! # Scripts of conditions

Each fragment has one template around the scripts of its children.
-/

namespace LockScript

namespace Script

variable {κ : Type} [PublicKey κ]

/-- A push of a key, in the serialization that its context checks. -/
def pushKey (context : Context) (key : κ) : Instruction :=
  .push (PublicKey.pushed context.scheme key)

/-- The opcode of a hash function. -/
def hashOpcode : HashKind → Opcode
  | .sha256 => .sha256
  | .hash256 => .hash256
  | .ripemd160 => .ripemd160
  | .hash160 => .hash160

/-- Adds up the result of a check under each key. -/
def checkSigChain (context : Context) : List κ → Script
  | [] => []
  | first :: rest =>
    [pushKey context first, .op .checkSig] ++
      rest.flatMap fun key => [pushKey context key, .op .checkSigAdd]

/-- The script of a leaf. -/
def ofLeaf (context : Context) : Leaf κ Digest → Script
  | .one => [.ofNumber 1]
  | .zero => [.ofNumber 0]
  | .key k => [pushKey context k]
  | .keyHash k =>
    [.op .dup, .op .hash160, .push (PublicKey.hash context.scheme k), .op .equalVerify]
  | .after lock => [.ofNumber lock.value, .op .checkLockTimeVerify]
  | .older lock => [.ofNumber lock.value, .op .checkSequenceVerify]
  | .digest d =>
    [.op .size, .ofNumber 32, .op .equalVerify, .op (hashOpcode d.kind), .push d.bytes, .op .equal]
  | .multi ks =>
    .ofNumber ks.k :: ks.items.map (pushKey context) ++ [.ofNumber ks.n, .op .checkMultiSig]
  | .multiA ks => checkSigChain context ks.items ++ [.ofNumber ks.k, .op .numEqual]

/-- The script of a wrapped fragment. -/
def wrap : Wrapper → Script → Script
  | .alt, x => .op .toAltStack :: x ++ [.op .fromAltStack]
  | .swap, x => .op .swap :: x
  | .check, x => x ++ [.op .checkSig]
  | .dupIf, x => [.op .dup, .op .if] ++ x ++ [.op .endIf]
  | .verify, x => x.verified
  | .nonzero, x => [.op .size, .op .zeroNotEqual, .op .if] ++ x ++ [.op .endIf]
  | .zeroNotEqual, x => x ++ [.op .zeroNotEqual]

/-- The script of two joined fragments. -/
def pair : Connective → Script → Script → Script
  | .andV, x, y => x ++ y
  | .andB, x, y => x ++ y ++ [.op .boolAnd]
  | .orB, x, y => x ++ y ++ [.op .boolOr]
  | .orD, x, y => x ++ [.op .ifDup, .op .notIf] ++ y ++ [.op .endIf]
  | .orC, x, y => x ++ [.op .notIf] ++ y ++ [.op .endIf]
  | .orI, x, y => [.op .if] ++ x ++ [.op .else] ++ y ++ [.op .endIf]

/-- The script of an `andor`; the third child comes before the second. -/
def andOr (x y z : Script) : Script :=
  x ++ [.op .notIf] ++ z ++ [.op .else] ++ y ++ [.op .endIf]

/-- The script of a `thresh`, which compares the sum of the results with `k`. -/
def threshold (k : Nat) : List Script → Script
  | [] => [.ofNumber k, .op .equal]
  | first :: rest =>
    first ++ rest.flatMap (fun x => x ++ [.op .add]) ++ [.ofNumber k, .op .equal]

/-- The script of a fragment over the scripts of its children. -/
def ofFragment (context : Context) : Fragment κ Digest Script → Script
  | .leaf l => ofLeaf context l
  | .wrap w x => wrap w x
  | .pair op x y => pair op x y
  | .andOr x y z => andOr x y z
  | .thresh k items => threshold k items

end Script

namespace Condition

variable {κ α : Type} [PublicKey κ]

/-- The script of a condition, built from the scripts of its fragments, children first. -/
def script (context : Context) (t : Condition κ Digest α) : Script :=
  Traversal.bottomUp (fun x items => Script.ofFragment context (x.fragment.withChildren items)) t

end Condition

end LockScript
