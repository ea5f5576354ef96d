import LockScript.Metrics

/-! # Sanity rules

A sane condition needs a signature on every path, cannot be malleated, fits its context, names no
key twice, and needs no height and time for one lock. Each rule can be waived.
-/

namespace LockScript

/-- The rule that a condition breaks. -/
inductive SanityError where
  | noSignature
  | malleable
  | exceedsLimits
  | repeatedKeys
  | mixedLocks
  deriving DecidableEq, Repr

/-- The reason in words. -/
def SanityError.message : SanityError → String
  | noSignature => "All spend paths must require a signature"
  | malleable => "Miniscript is malleable"
  | exceedsLimits =>
    "At least one spend path exceeds the resource limits(stack depth/satisfaction size..)"
  | repeatedKeys => "Miniscript contains repeated pubkeys or pubkeyhashes"
  | mixedLocks => "Contains a combination of heightlock and timelock"

/-- The rules that are waived. -/
structure Waivers where
  noSignature : Bool := false
  exceedsLimits : Bool := false
  mixedLocks : Bool := false
  malleable : Bool := false
  repeatedKeys : Bool := false
  deriving DecidableEq, Repr

namespace Waivers

/-- Every rule holds. -/
def none : Waivers := {}

/-- No rule holds. -/
def all : Waivers := ⟨true, true, true, true, true⟩

end Waivers

/-- Whether two items compare as equal. -/
def hasRepetition {α : Type} [Ord α] (items : List α) : Bool :=
  let sorted := items.mergeSort fun a b => (compare a b).isLE
  (sorted.zip sorted.tail).any fun (a, b) => compare a b == .eq

namespace Typed

variable {κ δ : Type}

/-- Whether every path needs a signature. -/
def requiresSignature (t : Typed κ δ) : Bool :=
  t.type.malleability.safe

/-- Whether no third party can change a witness, under the relay rules of the context too. -/
def isNonMalleable [KeyLike κ] (context : Context) (t : Typed κ δ) : Bool :=
  t.type.malleability.nonMalleable &&
    (Traversal.preorder t).all fun x => (context.checkRelay x.fragment).isOk

/-- Whether the worst case fits the context. -/
def withinLimits (context : Context) (t : Typed κ δ) : Bool :=
  (t.metrics.check context).isOk

/-- Whether some path needs a height and a time for one lock. -/
def hasMixedLocks (t : Typed κ δ) : Bool :=
  t.budget.lockUse.mixed

/-- Whether some key occurs twice. -/
def hasRepeatedKeys [KeyLike κ] (t : Typed κ δ) : Bool :=
  hasRepetition t.keys

/-- Applies the rules that are not waived; the first that is broken decides the error. -/
def checkSanity [KeyLike κ] (context : Context) (waivers : Waivers) (t : Typed κ δ) :
    Except SanityError Unit :=
  if !waivers.noSignature && !t.requiresSignature then .error .noSignature
  else if !waivers.malleable && !t.isNonMalleable context then .error .malleable
  else if !waivers.exceedsLimits && !t.withinLimits context then .error .exceedsLimits
  else if !waivers.repeatedKeys && t.hasRepeatedKeys then .error .repeatedKeys
  else if !waivers.mixedLocks && t.hasMixedLocks then .error .mixedLocks
  else .ok ()

end Typed

end LockScript
