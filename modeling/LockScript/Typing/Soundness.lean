import LockScript.Sum

/-! # Soundness properties

What a fragment does to the stack. Given a valid witness every branch can be reached, and no witness
passes a script that satisfies no branch: both rest on these properties, which each fragment derives
from those of its children.
-/

namespace LockScript

/-- Where a fragment may stand. -/
inductive Base where
  /-- Pushes a nonzero value if it holds, and zero if it does not and the script goes on. -/
  | B
  /-- Pushes a key in any case, for a signature check that follows. -/
  | K
  /-- Pushes nothing, and fails unless it holds. -/
  | V
  /-- Leaves the top of the stack alone and puts its result below it. -/
  | W
  deriving DecidableEq, Ord, Repr

namespace Base

/-- The letter of a base type. -/
def text : Base → String
  | B => "B"
  | K => "K"
  | V => "V"
  | W => "W"

end Base

/-- How many elements a fragment takes from the stack. -/
inductive Input where
  | zero
  | one
  /-- Any number. -/
  | any
  /-- Exactly one, which is not zero whenever the fragment holds. -/
  | oneNonzero
  /-- One or more, of which the top one is not zero whenever the fragment holds. -/
  | anyNonzero
  deriving DecidableEq, Ord, Repr

namespace Input

/-- Whether exactly one element is taken. -/
def isOne : Input → Bool
  | one | oneNonzero => true
  | zero | any | anyNonzero => false

/-- Whether the top element is not zero whenever the fragment holds. -/
def isNonzero : Input → Bool
  | oneNonzero | anyNonzero => true
  | zero | one | any => false

/-- The input of two fragments that run one after the other on the same stack. -/
def sequence : Input → Input → Input
  | zero, y => y
  | one, zero => one
  | oneNonzero, zero => oneNonzero
  | oneNonzero, _ | anyNonzero, _ => anyNonzero
  | one, _ | any, _ => any

/-- How much an input adds to the arguments of a threshold; two stands for any number. -/
def count : Input → Nat
  | zero => 0
  | one | oneNonzero => 1
  | any | anyNonzero => 2

end Input

/-- Why a fragment does not take its children. -/
inductive TypeFault where
  /-- A `d:` around a child that takes input. -/
  | dupIfTakesInput
  | leftNotDissatisfiable
  | rightNotDissatisfiable
  /-- An `s:` around a child that does not take exactly one element. -/
  | swapNotOne
  /-- A `j:` around a child that an empty element might satisfy. -/
  | nonzeroMayBeEmpty
  | leftNotUnit
  | childBase (expected found : Base)
  | pairBase (expected : List (Base × Base)) (found : Base × Base)
  | tripleBase (expected : List (Base × Base × Base)) (found : Base × Base × Base)
  | thresholdBase (index : Nat) (expected found : Base)
  | thresholdNotDissatisfiable (index : Nat)
  | thresholdNotUnit (index : Nat)
  deriving DecidableEq, Repr

/-- The soundness properties of a fragment. -/
structure Soundness where
  base : Base
  input : Input
  /-- Whether some witness makes the fragment push zero, and never abort. -/
  dissatisfiable : Bool
  /-- Whether the fragment pushes exactly 1 whenever it holds. -/
  unit : Bool
  deriving DecidableEq, Ord, Repr

namespace Soundness

/-- The fragment `1` takes nothing and never pushes zero. -/
def one : Soundness := ⟨.B, .zero, false, true⟩

/-- The fragment `0` takes nothing and always pushes zero. -/
def zero : Soundness := ⟨.B, .zero, true, true⟩

/-- A `pk_k` leaves a signature for the check that follows, which is not empty if the check holds.
-/
def key : Soundness := ⟨.K, .oneNonzero, true, true⟩

/-- A `pk_h` takes the key, and leaves a signature below it for the check that follows. -/
def keyHash : Soundness := ⟨.K, .anyNonzero, true, true⟩

/-- A `multi` takes its signatures, of which the top one is not empty, and one element more. -/
def multi : Soundness := ⟨.B, .anyNonzero, true, true⟩

/-- A `multi_a` takes an element for each key, and the top one may be empty. -/
def multiA : Soundness := ⟨.B, .any, true, true⟩

/-- A hashlock takes a secret of 32 bytes. -/
def digest : Soundness := ⟨.B, .oneNonzero, true, true⟩

/-- A lock leaves its number, which need not be 1, and aborts unless it is met. -/
def lock : Soundness := ⟨.B, .zero, false, false⟩

/-- Refuses a child of another base type. -/
def requireBase (expected : Base) (x : Soundness) : Except TypeFault Unit :=
  if x.base = expected then .ok () else .error (.childBase expected x.base)

/-- The wrapper `a:` puts the top of the stack aside while its child runs. -/
def alt (x : Soundness) : Except TypeFault Soundness := do
  requireBase .B x
  return { x with base := .W, input := .any }

/-- The wrapper `s:` swaps the one element that its child takes to the top. -/
def swap (x : Soundness) : Except TypeFault Soundness := do
  requireBase .B x
  if x.input.isOne then return { x with base := .W, input := .any } else throw .swapNotOne

/-- The wrapper `c:` checks a signature under the key that its child pushes, and pushes 1 or zero.
-/
def check (x : Soundness) : Except TypeFault Soundness := do
  requireBase .K x
  return { x with base := .B, unit := true }

/-- The wrapper `d:` keeps the element that chose to run its child as the result, so the child may
not look at it. -/
def dupIf (x : Soundness) : Except TypeFault Soundness := do
  requireBase .V x
  if x.input = .zero then return ⟨.B, .oneNonzero, true, true⟩ else throw .dupIfTakesInput

/-- The wrapper `v:` drops the result of its child, or aborts. -/
def verify (x : Soundness) : Except TypeFault Soundness := do
  requireBase .B x
  return { x with base := .V, dissatisfiable := false, unit := false }

/-- The wrapper `j:` skips its child on an empty element, which must not satisfy the child. -/
def nonzero (x : Soundness) : Except TypeFault Soundness := do
  if !x.input.isNonzero then throw .nonzeroMayBeEmpty
  requireBase .B x
  return { x with dissatisfiable := true }

/-- The wrapper `n:` turns every true result into 1. -/
def zeroNotEqual (x : Soundness) : Except TypeFault Soundness := do
  requireBase .B x
  return { x with unit := true }

/-- The accepted pairs, each with the base type of the whole. -/
def joinBase (accepted : List ((Base × Base) × Base)) (x y : Soundness) : Except TypeFault Base :=
  match accepted.lookup (x.base, y.base) with
  | some base => .ok base
  | none => .error (.pairBase (accepted.map Prod.fst) (x.base, y.base))

/-- An `and_b` runs both children and joins their results. -/
def andB (x y : Soundness) : Except TypeFault Soundness := do
  let base ← joinBase [((.B, .W), .B)] x y
  return ⟨base, x.input.sequence y.input, x.dissatisfiable && y.dissatisfiable, true⟩

/-- An `and_v` runs its second child once the first has passed, and ends as the second does. -/
def andV (x y : Soundness) : Except TypeFault Soundness := do
  let base ← joinBase [((.V, .B), .B), ((.V, .K), .K), ((.V, .V), .V)] x y
  return ⟨base, x.input.sequence y.input, false, y.unit⟩

/-- An `or_b` runs both children, so each must be able to answer no. -/
def orB (x y : Soundness) : Except TypeFault Soundness := do
  if !x.dissatisfiable then throw .leftNotDissatisfiable
  if !y.dissatisfiable then throw .rightNotDissatisfiable
  let base ← joinBase [((.B, .W), .B)] x y
  let input := match x.input, y.input with
    | .zero, .zero => .zero
    | .zero, right => if right.isOne then .one else .any
    | left, .zero => if left.isOne then .one else .any
    | _, _ => .any
  return ⟨base, input, true, true⟩

/-- A child that decides between branches must be able to answer no, and must answer yes with 1. -/
def requireDecider (x : Soundness) : Except TypeFault Unit := do
  if !x.dissatisfiable then throw .leftNotDissatisfiable
  if !x.unit then throw .leftNotUnit

/-- The input of a fragment whose right child runs only sometimes. -/
def orInput : Input → Input → Input
  | .zero, .zero => .zero
  | left, .zero => if left.isOne then .one else .any
  | _, _ => .any

/-- An `or_d` runs its second child if the first answers no, and ends as the second does. -/
def orD (x y : Soundness) : Except TypeFault Soundness := do
  requireDecider x
  let base ← joinBase [((.B, .B), .B)] x y
  return ⟨base, orInput x.input y.input, y.dissatisfiable, y.unit⟩

/-- An `or_c` runs its second child, which must then pass, if the first answers no. -/
def orC (x y : Soundness) : Except TypeFault Soundness := do
  requireDecider x
  let base ← joinBase [((.B, .V), .V)] x y
  return ⟨base, orInput x.input y.input, false, false⟩

/-- An `or_i` takes one element more, which chooses the child to run. -/
def orI (x y : Soundness) : Except TypeFault Soundness := do
  let base ← joinBase [((.B, .B), .B), ((.V, .V), .V), ((.K, .K), .K)] x y
  let input := match x.input, y.input with
    | .zero, .zero => .one
    | _, _ => .any
  return ⟨base, input, x.dissatisfiable || y.dissatisfiable, x.unit && y.unit⟩

/-- An `andor` runs its second child if the first answers yes, and its third if not. -/
def andOr (x y z : Soundness) : Except TypeFault Soundness := do
  requireDecider x
  let accepted : List ((Base × Base × Base) × Base) :=
    [((.B, .B, .B), .B), ((.B, .K, .K), .K), ((.B, .V, .V), .V)]
  let base ← match accepted.lookup (x.base, y.base, z.base) with
    | some base => pure base
    | none => throw (.tripleBase (accepted.map Prod.fst) (x.base, y.base, z.base))
  let input := match x.input, y.input, z.input with
    | .zero, .zero, .zero => .zero
    | .zero, second, third => if second.isOne && third.isOne then .one else .any
    | first, .zero, .zero => if first.isOne then .one else .any
    | _, _, _ => .any
  return ⟨base, input, z.dissatisfiable, y.unit && z.unit⟩

/-- Refuses a child of a threshold: the first is a `B`, the others are `W`, and each must answer
both yes, with 1, and no. -/
def requireSummand (index : Nat) (x : Soundness) : Except TypeFault Unit := do
  let expected : Base := if index = 0 then .B else .W
  if x.base ≠ expected then throw (.thresholdBase index expected x.base)
  if !x.unit then throw (.thresholdNotUnit index)
  if !x.dissatisfiable then throw (.thresholdNotDissatisfiable index)

/-- A `thresh` runs all children and adds up their answers. -/
def threshold (items : List Soundness) : Except TypeFault Soundness := do
  items.zipIdx.forM fun (x, index) => requireSummand index x
  let input := match sumOf (·.input.count) items with
    | 0 => .zero
    | 1 => .one
    | _ => .any
  return ⟨.B, input, true, true⟩

end Soundness

end LockScript
