import LockScript.Resource.Quantity

/-! # Resource usage

The worst case of one satisfaction or dissatisfaction: the size of its witness, and what it costs to
run the script on it.
-/

namespace LockScript

/-- Bounds on a satisfaction or a dissatisfaction. -/
structure Usage (ν : Type) where
  /-- Witness bytes, each element counted with its length. -/
  witnessSize : ν
  /-- Witness elements. -/
  witnessItems : ν
  /-- Bytes of a scriptSig that pushes the witness. -/
  scriptSigSize : ν
  /-- Stack elements that the run adds to the witness. -/
  execItems : ν
  /-- Opcodes beyond those of the script, which only multisignature checks add. -/
  execOpcodes : ν
  deriving DecidableEq, Repr

namespace Usage

open Quantity (amount)

variable {ν : Type} [Quantity ν]

/-- The usage of a few pushes. -/
def pushes (witnessSize witnessItems scriptSigSize execItems : Nat) : Usage ν :=
  ⟨amount witnessSize, amount witnessItems, amount scriptSigSize, amount execItems, amount 0⟩

/-- No witness at all. -/
def nothing : Usage ν := pushes 0 0 0 1

/-- The empty element. -/
def emptyElement : Usage ν := pushes 1 1 1 1

/-- One after the other, where the first leaves `shift` elements on the stack while the second runs.
-/
def followedBy (first second : Usage ν) (shift : Nat) : Usage ν where
  witnessSize := first.witnessSize + second.witnessSize
  witnessItems := first.witnessItems + second.witnessItems
  scriptSigSize := first.scriptSigSize + second.scriptSigSize
  execItems := max first.execItems (second.execItems + amount shift)
  execOpcodes := first.execOpcodes + second.execOpcodes

/-- Adds the element that chooses a branch, of the given size in a witness. -/
def withSelector (usage : Usage ν) (size : Nat) : Usage ν :=
  { usage with
    witnessSize := usage.witnessSize + amount size
    witnessItems := usage.witnessItems + amount 1
    scriptSigSize := usage.scriptSigSize + amount 1 }

/-- The worst case of two alternatives, field by field. -/
def worst (a b : Usage ν) : Usage ν where
  witnessSize := max a.witnessSize b.witnessSize
  witnessItems := max a.witnessItems b.witnessItems
  scriptSigSize := max a.scriptSigSize b.scriptSigSize
  execItems := max a.execItems b.execItems
  execOpcodes := max a.execOpcodes b.execOpcodes

/-- One after the other, if both are possible. -/
def followedBy? (first second : Option (Usage ν)) (shift : Nat) : Option (Usage ν) := do
  return (← first).followedBy (← second) shift

/-- The worst case of the alternatives that are possible. -/
def worst? : Option (Usage ν) → Option (Usage ν) → Option (Usage ν)
  | some a, some b => some (a.worst b)
  | a, none => a
  | none, b => b

/-- The most that one measure can reach when `k` of the children are satisfied and the others
dissatisfied. A child that cannot be dissatisfied is always among the `k`; of the others, those
count that grow the most. There is no bound if no choice of `k` is possible. -/
def thresholdMeasure? (measure : Usage ν → ν) (k : Nat)
    (items : List (Option (Usage ν) × Option (Usage ν))) : Option ν :=
  if items.any fun (sat, dissat) => sat.isNone && dissat.isNone then none
  else
    let base := Quantity.total <| items.map fun (sat, dissat) =>
      match dissat, sat with
      | some d, _ => measure d
      | none, some s => measure s
      | none, none => amount 0
    let forced := items.countP fun (_, dissat) => dissat.isNone
    let growth := items.filterMap fun (sat, dissat) =>
      match sat, dissat with
      | some s, some d => some (Quantity.excess (measure s) (measure d))
      | _, _ => none
    if forced ≤ k ∧ k - forced ≤ growth.length then
      some (base + Quantity.totalOfLargest (k - forced) growth)
    else none

/-- The usage of a threshold, each measure bounded on its own; `items` holds the satisfaction and
the dissatisfaction of each child. -/
def threshold? (k : Nat) (execItems : ν) (items : List (Option (Usage ν) × Option (Usage ν))) :
    Option (Usage ν) := do
  return {
    witnessSize := ← thresholdMeasure? witnessSize k items
    witnessItems := ← thresholdMeasure? witnessItems k items
    scriptSigSize := ← thresholdMeasure? scriptSigSize k items
    execItems
    execOpcodes := ← thresholdMeasure? execOpcodes k items }

/-- All children of a threshold dissatisfied, if each of them can be. -/
def thresholdNone? (execItems : ν) (dissats : List (Option (Usage ν))) : Option (Usage ν) :=
  dissats.foldlM (fun usage dissat => do
    return { usage.followedBy (← dissat) 0 with execItems }) { pushes 0 0 0 0 with execItems }

end Usage

end LockScript
