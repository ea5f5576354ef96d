import LockScript.Typed
import LockScript.Script.Encoding

/-! # Metrics and limits

The worst case of a script and its satisfactions, measured against the ceilings of its context.
-/

namespace LockScript

/-- A bounded resource, in the order in which the bounds are tested. -/
inductive Resource where
  | scriptSize
  | opcodes
  | witnessItems
  | scriptSigSize
  | execStack
  deriving DecidableEq, Repr

/-- The name of a resource in messages. -/
def Resource.name : Resource → String
  | scriptSize => "script size"
  | opcodes => "opcode count"
  | witnessItems => "witness element count"
  | scriptSigSize => "scriptSig size"
  | execStack => "execution stack size"

/-- A resource of which a script may need more than its context allows. -/
structure LimitError where
  resource : Resource
  measured : Word
  ceiling : Nat
  deriving DecidableEq, Repr

/-- The reason in words. -/
def LimitError.message (error : LimitError) : String :=
  error.resource.name ++ " of " ++ toString error.measured.toNat ++ " exceeds the limit of " ++
    toString error.ceiling

/-- The worst case of a script. The witness is not measured if there is none. -/
structure Metrics where
  /-- Bytes of the script. -/
  scriptSize : Word
  /-- Opcodes other than pushes, and the keys of every multisignature check that may run. -/
  opcodes : Word
  witnessItems : Option Word
  witnessSize : Option Word
  scriptSigSize : Option Word
  /-- Elements on both stacks while the script runs, those of the witness included. -/
  execStack : Option Word
  deriving DecidableEq, Repr

namespace Metrics

/-- Each bounded resource with its measure and its ceiling, where there are any. -/
def bounds (metrics : Metrics) (limits : Limits) : List (Resource × Option Word × Option Nat) := [
  (.scriptSize, some metrics.scriptSize, some limits.scriptSize),
  (.opcodes, some metrics.opcodes, limits.opcodes),
  (.witnessItems, metrics.witnessItems, limits.witnessItems),
  (.scriptSigSize, metrics.scriptSigSize, limits.scriptSigSize),
  (.execStack, metrics.execStack, some limits.execStack)]

/-- Tests one bound; a resource without measure or ceiling is within it. -/
def checkBound : Resource × Option Word × Option Nat → Except LimitError Unit
  | (resource, some measured, some ceiling) =>
    if measured.toNat ≤ ceiling then .ok () else .error ⟨resource, measured, ceiling⟩
  | _ => .ok ()

/-- Tests the bounds in order; the first that is exceeded decides the error. -/
def check (metrics : Metrics) (context : Context) : Except LimitError Unit :=
  (metrics.bounds context.limits).forM checkBound

end Metrics

/-- A script within the limits of its context, and its worst case. -/
structure Compiled where
  script : Script
  metrics : Metrics

namespace Typed

variable {κ δ : Type}

/-- The worst case, read off the budget. -/
def metrics (t : Typed κ δ) : Metrics where
  scriptSize := t.budget.scriptSize
  opcodes := t.budget.opcodes + (t.budget.sat.map (·.execOpcodes)).getD 0
  witnessItems := t.budget.sat.map (·.witnessItems)
  witnessSize := t.budget.sat.map (·.witnessSize)
  scriptSigSize := t.budget.sat.map (·.scriptSigSize)
  execStack := t.budget.sat.map fun usage => usage.execItems + usage.witnessItems

/-- The most elements of a satisfying witness and the script that follows it, if there is one. -/
def maxWitnessItems (t : Typed κ δ) : Option Word :=
  t.budget.sat.map (·.witnessItems + 1)

/-- The most bytes of a satisfying witness, or of the scriptSig where that carries it. -/
def maxSatisfactionSize (context : Context) (t : Typed κ δ) : Option Word :=
  t.budget.sat.map fun usage =>
    if context.limits.scriptSigSize.isSome then usage.scriptSigSize else usage.witnessSize

/-- Builds the script and measures it against the limits of its context. -/
def compile {κ : Type} [PublicKey κ] (context : Context) (t : Typed κ Digest) :
    Except LimitError Compiled := do
  let script := t.script context
  let metrics := { t.metrics with scriptSize := UInt64.ofNat script.bytes.length }
  metrics.check context
  return ⟨script, metrics⟩

end Typed

end LockScript
