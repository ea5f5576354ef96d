import LockScript.Bytes
import LockScript.Sum

/-! # Witnesses

The outcome of looking for a witness: the elements to push, or the reason why there are none. Where
a secret or a lock is missing, someone else may still have it; where a signature is missing, nobody
can supply it.
-/

namespace LockScript

/-- The bytes of an element with its length. -/
def elementSize (element : Bytes) : Nat :=
  element.length + Bytes.compactSizeLength element.length

/-- The bytes of a stack of elements. -/
def witnessSize (items : List Bytes) : Nat :=
  sumOf elementSize items

/-- What was found. -/
inductive Witness where
  /-- The elements to push, bottom of the stack first. -/
  | stack (items : List Bytes)
  /-- Missing here, but others may have it. -/
  | unavailable
  /-- Nobody else can supply what is missing. -/
  | impossible
  deriving DecidableEq, Repr

namespace Witness

/-- Nothing to push. -/
def empty : Witness := stack []

/-- The element that is true. -/
def pushOne : Witness := stack [[1]]

/-- The empty element, which is false. -/
def pushZero : Witness := stack [[]]

/-- Both, the first below the second on the stack. What is impossible outweighs what is missing. -/
def below : Witness → Witness → Witness
  | stack lower, stack upper => stack (lower ++ upper)
  | impossible, _ | _, impossible => impossible
  | unavailable, _ | _, unavailable => unavailable

/-- The serialized size, if there is a witness. -/
def size? : Witness → Option Nat
  | stack items => some (witnessSize items)
  | unavailable | impossible => none

/-- Stacks are ordered by size alone and come first, then what is impossible, then what is missing.
-/
def order : Witness → Witness → Ordering
  | stack a, stack b => compare (witnessSize a) (witnessSize b)
  | stack _, _ => .lt
  | _, stack _ => .gt
  | impossible, impossible => .eq
  | impossible, unavailable => .lt
  | unavailable, impossible => .gt
  | unavailable, unavailable => .eq

/-- The cheaper of two, and the first of two that cost the same. -/
def cheaper (a b : Witness) : Witness :=
  if (order a b).isLE then a else b

end Witness

end LockScript
