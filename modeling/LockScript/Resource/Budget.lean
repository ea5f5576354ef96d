import LockScript.Fragment
import LockScript.Sum
import LockScript.Resource.Usage
import LockScript.Resource.Locks

/-! # Resource budgets

For each fragment, the size of its script and bounds on everything that satisfies or dissatisfies
it, derived from the budgets of its children without building a script or a witness.

The rules of this file take any budgets. Only `Budget.ofFragment` drops the bounds of witnesses that
no transaction could hold.
-/

namespace LockScript

/-- The length of the push of a number, from the one byte of a small number to six. -/
def numberLength (number : Nat) : Nat :=
  if number ≤ 0x10 then 1
  else if number < 0x80 then 2
  else if number < 0x8000 then 3
  else if number < 0x800000 then 4
  else if number < 0x80000000 then 5
  else 6

/-- What a fragment costs. -/
structure Budget (ν : Type) where
  /-- Bytes of the script. -/
  scriptSize : ν
  /-- Whether the script ends in an opcode with a verifying form, so that `v:` takes no byte. -/
  freeVerify : Bool
  /-- Opcodes of the script other than pushes. -/
  opcodes : ν
  /-- Bounds on the satisfactions, if there is one. -/
  sat : Option (Usage ν)
  /-- Bounds on the dissatisfactions, if there is one. -/
  dissat : Option (Usage ν)
  lockUse : LockUse
  lockPaths : LockPaths
  /-- The height of the tree; a leaf has none. -/
  height : Nat
  deriving DecidableEq, Repr

namespace Budget

open Quantity (amount)

variable {ν : Type} [Quantity ν]

/-- The fragment `1` needs no witness and has no dissatisfaction. -/
def one : Budget ν :=
  ⟨amount 1, false, amount 0, some .nothing, none, .free, .leaf false, 0⟩

/-- The fragment `0` needs no witness to be dissatisfied and has no satisfaction. -/
def zero : Budget ν :=
  ⟨amount 1, false, amount 0, none, some .nothing, .free, ⟨.empty, .free⟩, 0⟩

/-- A leaf that needs no lock. -/
def leaf (scriptSize opcodes : Nat) (sat : Usage ν) (dissat : Option (Usage ν)) : Budget ν :=
  ⟨amount scriptSize, false, amount opcodes, some sat, dissat, .free, .leaf dissat.isSome, 0⟩

/-- The size of a signature with its length, at most. -/
def signatureSize : SignatureScheme → Nat
  | .ecdsa => 73
  | .schnorr => 66

section Keys

variable {κ : Type} [KeyLike κ]

/-- A `pk_k` takes a signature, or the empty element in its place. -/
def key (context : Context) (k : κ) : Budget ν :=
  let signature := signatureSize context.scheme
  leaf (context.keyLength k) 0 (.pushes signature 1 signature 1) (some .emptyElement)

/-- A `pk_h` takes the key besides the signature; its script holds a hash of 20 bytes. -/
def keyHash (context : Context) (k : κ) : Budget ν :=
  let signature := signatureSize context.scheme
  let revealed := context.keyLength k
  leaf 24 3 (.pushes (signature + revealed) 2 (signature + revealed) 2)
    (some (.pushes (1 + revealed) 2 (1 + revealed) 2))

/-- A `multi` takes `k` ECDSA signatures above the element that the check takes in addition. -/
def multi (context : Context) (k : Nat) (keys : List κ) : Budget ν :=
  let n := keys.length
  let sat : Usage ν := .pushes (1 + 73 * k) (k + 1) (1 + 73 * k) n
  let dissat : Usage ν := .pushes (k + 1) (k + 1) (k + 1) n
  { leaf (numberLength k + numberLength n + 1 + sumOf context.keyLength keys) 1
      { sat with execOpcodes := amount n } (some { dissat with execOpcodes := amount n }) with
    freeVerify := true }

/-- A `multi_a` takes an element for each key, of which `k` are signatures and the others empty. -/
def multiA (context : Context) (k : Nat) (keys : List κ) : Budget ν :=
  let n := keys.length
  let satSize := n + (signatureSize context.scheme - 1) * k
  { leaf (sumOf (fun key => context.keyLength key + 1) keys + numberLength k + 1) (n + 1)
      (.pushes satSize n satSize 2) (some (.pushes n n n 2)) with
    freeVerify := true }

end Keys

/-- A hashlock with a digest of the given width; the secret takes 33 bytes. -/
def digest (width : Nat) : Budget ν :=
  { leaf (7 + width) 4 (.pushes 33 1 33 2) (some (.pushes 33 1 33 2)) with freeVerify := true }

/-- A lock of one kind. -/
def lock (value : Nat) (kinds : LockKinds) : Budget ν :=
  { leaf (numberLength value + 1) 1 .nothing none with
    lockUse := ⟨kinds, false⟩
    lockPaths := .lock kinds }

/-- An `after` needs its one kind of absolute lock. -/
def after (l : AbsoluteLock) : Budget ν :=
  lock l.value (.ofAbsolute l)

/-- An `older` needs its one kind of relative lock. -/
def older (l : RelativeLock) : Budget ν :=
  lock l.value (.ofRelative l)

/-- A wrapper that adds as many bytes as opcodes. -/
def wrapped (x : Budget ν) (cost : Nat) : Budget ν :=
  { x with
    scriptSize := x.scriptSize + amount cost
    opcodes := x.opcodes + amount cost
    freeVerify := false
    height := x.height + 1 }

/-- The wrapper `a:` adds an opcode on either side. -/
def alt (x : Budget ν) : Budget ν :=
  x.wrapped 2

/-- The wrapper `s:` adds an opcode in front, so that the last one stays as it is. -/
def swap (x : Budget ν) : Budget ν :=
  { x.wrapped 1 with freeVerify := x.freeVerify }

/-- The wrapper `c:` adds `CHECKSIG`, which has a verifying form. -/
def check (x : Budget ν) : Budget ν :=
  { x.wrapped 1 with freeVerify := true }

/-- The wrapper `d:` takes `1` to run its child and the empty element to skip it. -/
def dupIf (x : Budget ν) : Budget ν :=
  { x.wrapped 3 with
    sat := x.sat.map (·.withSelector 2)
    dissat := some .emptyElement
    lockPaths := { x.lockPaths with dissat := .free } }

/-- The wrapper `v:` adds an opcode only if the last one has no verifying form. -/
def verify (x : Budget ν) : Budget ν :=
  { x.wrapped (if x.freeVerify then 0 else 1) with
    dissat := none
    lockPaths := { x.lockPaths with dissat := .empty } }

/-- The wrapper `j:` is dissatisfied by the empty element. -/
def nonzero (x : Budget ν) : Budget ν :=
  { x.wrapped 4 with
    dissat := some .emptyElement
    lockPaths := { x.lockPaths with dissat := .free } }

/-- The wrapper `n:` adds an opcode. -/
def zeroNotEqual (x : Budget ν) : Budget ν :=
  x.wrapped 1

/-- The parts of a budget that only add up: script size, opcodes and height. -/
def joined (items : List (Budget ν)) (opcodes : Nat) (sat dissat : Option (Usage ν))
    (lockUse : LockUse) (lockPaths : LockPaths) : Budget ν where
  scriptSize := Quantity.total (items.map scriptSize) + amount opcodes
  freeVerify := false
  opcodes := Quantity.total (items.map Budget.opcodes) + amount opcodes
  sat
  dissat
  lockUse
  lockPaths
  height := 1 + (items.map height).foldr max 0

open Usage (followedBy? worst?)

/-- An `and_v` satisfies both children and cannot be dissatisfied; its script ends in that of the
second. -/
def andV (x y : Budget ν) : Budget ν :=
  { joined [x, y] 0 (followedBy? x.sat y.sat 0) none (x.lockUse.and y.lockUse)
      ⟨x.lockPaths.sat.join y.lockPaths.sat, .empty⟩ with
    freeVerify := y.freeVerify }

/-- An `and_b` satisfies both children or dissatisfies both, and the result of the first waits on
the stack while the second runs. -/
def andB (x y : Budget ν) : Budget ν :=
  joined [x, y] 1 (followedBy? x.sat y.sat 1) (followedBy? x.dissat y.dissat 1)
    (x.lockUse.and y.lockUse)
    ⟨x.lockPaths.sat.join y.lockPaths.sat, x.lockPaths.dissat.join y.lockPaths.dissat⟩

/-- An `or_b` satisfies one child and dissatisfies the other, and both run. -/
def orB (x y : Budget ν) : Budget ν :=
  joined [x, y] 1 (worst? (followedBy? x.sat y.dissat 1) (followedBy? x.dissat y.sat 1))
    (followedBy? x.dissat y.dissat 1) (x.lockUse.or y.lockUse)
    ⟨(x.lockPaths.sat.join y.lockPaths.dissat).union (x.lockPaths.dissat.join y.lockPaths.sat),
      x.lockPaths.dissat.join y.lockPaths.dissat⟩

/-- An `or_d` satisfies its first child, or dissatisfies it and satisfies the second. -/
def orD (x y : Budget ν) : Budget ν :=
  joined [x, y] 3 (worst? x.sat (followedBy? x.dissat y.sat 0)) (followedBy? x.dissat y.dissat 1)
    (x.lockUse.or y.lockUse)
    ⟨x.lockPaths.sat.union (x.lockPaths.dissat.join y.lockPaths.sat),
      x.lockPaths.dissat.join y.lockPaths.dissat⟩

/-- An `or_c` is satisfied as an `or_d` is, and cannot be dissatisfied. -/
def orC (x y : Budget ν) : Budget ν :=
  joined [x, y] 2 (worst? x.sat (followedBy? x.dissat y.sat 0)) none (x.lockUse.or y.lockUse)
    ⟨x.lockPaths.sat.union (x.lockPaths.dissat.join y.lockPaths.sat), .empty⟩

/-- An `or_i` takes `1`, of two bytes, to choose its first branch and the empty element for the
second. -/
def orI (x y : Budget ν) : Budget ν :=
  joined [x, y] 3 (worst? (x.sat.map (·.withSelector 2)) (y.sat.map (·.withSelector 1)))
    (worst? (x.dissat.map (·.withSelector 2)) (y.dissat.map (·.withSelector 1)))
    (x.lockUse.or y.lockUse)
    ⟨x.lockPaths.sat.union y.lockPaths.sat, x.lockPaths.dissat.union y.lockPaths.dissat⟩

/-- An `andor` satisfies its first two children, or dissatisfies the first and runs the third. -/
def andOr (x y z : Budget ν) : Budget ν :=
  joined [x, y, z] 3 (worst? (followedBy? x.sat y.sat 0) (followedBy? x.dissat z.sat 0))
    (followedBy? x.dissat z.dissat 0) ((x.lockUse.and y.lockUse).or z.lockUse)
    ⟨(x.lockPaths.sat.join y.lockPaths.sat).union (x.lockPaths.dissat.join z.lockPaths.sat),
      x.lockPaths.dissat.join z.lockPaths.dissat⟩

/-- A `thresh` runs all children with at most the largest extra need of any of them, and one more
element for the sum. -/
def threshold (k : Nat) (items : List (Budget ν)) : Budget ν :=
  let execItems : ν :=
    Quantity.largest (items.flatMap fun x => (x.sat.toList ++ x.dissat.toList).map (·.execItems)) +
      amount 1
  let whole := joined items items.length
    (Usage.threshold? k execItems (items.map fun x => (x.sat, x.dissat)))
    (Usage.thresholdNone? execItems (items.map dissat))
    (.threshold k (items.map lockUse)) (.threshold k (items.map lockPaths))
  { whole with
    scriptSize := whole.scriptSize + amount (numberLength k)
    freeVerify := true }

/-- The budget of a leaf. -/
def ofLeaf {κ δ : Type} [KeyLike κ] [DigestLike δ] (context : Context) : Leaf κ δ → Budget ν
  | .one => one
  | .zero => zero
  | .key k => key context k
  | .keyHash k => keyHash context k
  | .after l => after l
  | .older l => older l
  | .digest d => digest (DigestLike.kind d).width
  | .multi ks => multi context ks.k ks.items
  | .multiA ks => multiA context ks.k ks.items

/-- The budget of a wrapped fragment. -/
def wrap : Wrapper → Budget ν → Budget ν
  | .alt => alt
  | .swap => swap
  | .check => check
  | .dupIf => dupIf
  | .verify => verify
  | .nonzero => nonzero
  | .zeroNotEqual => zeroNotEqual

/-- The budget of two joined fragments. -/
def pair : Connective → Budget ν → Budget ν → Budget ν
  | .andV => andV
  | .andB => andB
  | .orB => orB
  | .orD => orD
  | .orC => orC
  | .orI => orI

/-- Drops the bounds of witnesses that would all need a height and a time for one lock. -/
def withoutMixedPaths (x : Budget ν) : Budget ν :=
  { x with
    sat := if x.lockPaths.sat.isInhabited then x.sat else none
    dissat := if x.lockPaths.dissat.isInhabited then x.dissat else none }

/-- The budget of a fragment over the budgets of its children. -/
def ofFragment {κ δ : Type} [KeyLike κ] [DigestLike δ] (context : Context)
    (fragment : Fragment κ δ (Budget ν)) : Budget ν :=
  let whole : Budget ν := match fragment with
    | .leaf l => ofLeaf context l
    | .wrap w x => wrap w x
    | .pair op x y => pair op x y
    | .andOr x y z => andOr x y z
    | .thresh k items => threshold k items
  whole.withoutMixedPaths

end Budget

end LockScript
