import LockScript.Typing.Soundness

/-! # Type errors

A type error names the fragment that does not take its children, and quotes it.
-/

namespace LockScript

/-- A fragment whose children do not fit. -/
structure TypeError where
  fault : TypeFault
  /-- The name of the fragment. -/
  name : String
  /-- The fragment in writing. -/
  text : String
  deriving DecidableEq, Repr

/-- A tuple of base types in writing. -/
def Base.tupleText (bases : List Base) : String :=
  "(" ++ ", ".intercalate (bases.map Base.text) ++ ")"

/-- A list of tuples of base types in writing. -/
def Base.tuplesText (tuples : List (List Base)) : String :=
  "[" ++ ", ".intercalate (tuples.map Base.tupleText) ++ "]"

namespace TypeError

/-- The reason in words. -/
def message (error : TypeError) : String :=
  let fragment := "fragment «" ++ error.text ++ "»"
  match error.fault with
  | .dupIfTakesInput =>
    fragment ++ " applies `d:` to a fragment which consumes stack input"
  | .leftNotDissatisfiable => fragment ++ " requires its left child be dissatisfiable"
  | .rightNotDissatisfiable => fragment ++ " requires its right child be dissatisfiable"
  | .swapNotOne =>
    fragment ++ " attempts to use `SWAP` to prefix something which does not take exactly one input"
  | .nonzeroMayBeEmpty =>
    fragment ++ " attempts to use the `j:` wrapper around a fragment which might be " ++
      "satisfied by an input of size zero"
  | .leftNotUnit =>
    fragment ++ " requires its left child be a unit (outputs exactly 1 given a satisfying input)"
  | .childBase expected found =>
    fragment ++ " (" ++ error.name ++ ") expects a child of type " ++ expected.text ++
      " but found " ++ found.text
  | .pairBase expected found =>
    fragment ++ " (" ++ error.name ++ ") cannot accept children of types " ++ found.1.text ++
      " and " ++ found.2.text ++ "; expected one of " ++
      Base.tuplesText (expected.map fun (x, y) => [x, y])
  | .tripleBase expected found =>
    fragment ++ " cannot accept children of types " ++ found.1.text ++ ", " ++ found.2.1.text ++
      " and " ++ found.2.2.text ++ "; expected one of " ++
      Base.tuplesText (expected.map fun (x, y, z) => [x, y, z])
  | .thresholdBase index expected found =>
    fragment ++ " sub-fragment " ++ toString index ++ " has type " ++ found.text ++
      " rather than " ++ expected.text
  | .thresholdNotDissatisfiable index =>
    fragment ++ " sub-fragment " ++ toString index ++
      " can not be dissatisfied and cannot be used in a threshold"
  | .thresholdNotUnit index =>
    fragment ++ " sub-fragment " ++ toString index ++
      " is not a unit (does not put exactly 1 on the stack given a satisfying input)"

end TypeError

end LockScript
