/-! # Malleability properties

Whether a third party could replace the witness of a transaction by another one. Third parties are
taken to know every secret and to be able to build any dissatisfaction; they cannot sign.
-/

namespace LockScript

/-- What is known of the witnesses that make a fragment push zero. -/
inductive Dissatisfaction where
  /-- There is none; a witness that does not satisfy aborts the script. -/
  | none
  /-- There is exactly one, and everyone can build it. -/
  | unique
  /-- Nothing is known. -/
  | unknown
  deriving DecidableEq, Ord, Repr

namespace Dissatisfaction

/-- The effect of a new way to push zero. -/
def withZeroPath : Dissatisfaction → Dissatisfaction
  | none => unique
  | unique | unknown => unknown

end Dissatisfaction

/-- The malleability properties of a fragment. -/
structure Malleability where
  dissatisfaction : Dissatisfaction
  /-- Whether every satisfaction holds a signature. -/
  safe : Bool
  /-- Whether some satisfaction cannot be replaced by a third party. -/
  nonMalleable : Bool
  deriving DecidableEq, Ord, Repr

namespace Malleability

/-- The fragment `1` holds without a signature and cannot be dissatisfied. -/
def one : Malleability := ⟨.none, false, true⟩

/-- The fragment `0` has one dissatisfaction, and no satisfaction that would lack a signature. -/
def zero : Malleability := ⟨.unique, true, true⟩

/-- Every leaf that checks signatures. -/
def key : Malleability := ⟨.unique, true, true⟩

/-- Any hashlock: every secret of the right length that is wrong dissatisfies it. -/
def digest : Malleability := ⟨.unknown, false, true⟩

/-- A lock that is met needs no signature, and one that is not aborts. -/
def lock : Malleability := ⟨.none, false, true⟩

/-- The wrapper `d:` adds a way to push zero. -/
def dupIf (x : Malleability) : Malleability :=
  { x with dissatisfaction := x.dissatisfaction.withZeroPath }

/-- The wrapper `v:` aborts where its child pushes zero. -/
def verify (x : Malleability) : Malleability :=
  { x with dissatisfaction := .none }

/-- The wrapper `j:` adds a way to push zero. -/
def nonzero (x : Malleability) : Malleability :=
  { x with dissatisfaction := x.dissatisfaction.withZeroPath }

/-- An `and_b` pushes zero if either child does, but a child that third parties cannot satisfy keeps
them from dissatisfying the other one alone. -/
def andB (x y : Malleability) : Malleability where
  dissatisfaction :=
    match x.dissatisfaction, y.dissatisfaction with
    | .none, .none => .none
    | .none, _ => if x.safe then .none else .unknown
    | _, .none => if y.safe then .none else .unknown
    | .unique, .unique => if x.safe && y.safe then .unique else .unknown
    | _, _ => .unknown
  safe := x.safe || y.safe
  nonMalleable := x.nonMalleable && y.nonMalleable

/-- An `and_v` pushes zero only through a satisfaction of its first child, which third parties
cannot build if it holds a signature. -/
def andV (x y : Malleability) : Malleability where
  dissatisfaction := if y.dissatisfaction = .none ∨ x.safe then .none else .unknown
  safe := x.safe || y.safe
  nonMalleable := x.nonMalleable && y.nonMalleable

/-- An `or_b` dissatisfies one child, which must then have no other answer to give: each child has
one dissatisfaction, and one of them cannot be satisfied by third parties. -/
def orB (x y : Malleability) : Malleability where
  dissatisfaction := .unique
  safe := x.safe && y.safe
  nonMalleable := x.nonMalleable && x.dissatisfaction == .unique &&
    y.nonMalleable && y.dissatisfaction == .unique && (x.safe || y.safe)

/-- An `or_d` reaches its second child only through the dissatisfaction of the first. -/
def orD (x y : Malleability) : Malleability where
  dissatisfaction := y.dissatisfaction
  safe := x.safe && y.safe
  nonMalleable := x.nonMalleable && x.dissatisfaction == .unique &&
    y.nonMalleable && (x.safe || y.safe)

/-- An `or_c` is an `or_d` that aborts rather than push zero. -/
def orC (x y : Malleability) : Malleability :=
  { orD x y with dissatisfaction := .none }

/-- An `or_i` can be dissatisfied through either branch, so in one way only if one branch cannot. -/
def orI (x y : Malleability) : Malleability where
  dissatisfaction :=
    match x.dissatisfaction, y.dissatisfaction with
    | .none, .none => .none
    | .unique, .none | .none, .unique => .unique
    | _, _ => .unknown
  safe := x.safe && y.safe
  nonMalleable := x.nonMalleable && y.nonMalleable && (x.safe || y.safe)

/-- An `andor` is dissatisfied through its third child, unless third parties can satisfy the first
and dissatisfy the second. -/
def andOr (x y z : Malleability) : Malleability where
  dissatisfaction :=
    if x.safe ∨ y.dissatisfaction = .none then z.dissatisfaction else .unknown
  safe := (x.safe || y.safe) && z.safe
  nonMalleable := x.nonMalleable && z.nonMalleable && x.dissatisfaction == .unique &&
    y.nonMalleable && (x.safe || y.safe || z.safe)

/-- For a `thresh`, more than `n - k` children must be safe for every choice of `k` to hold a
signature, and `n - k` for no third party to find another choice. -/
def threshold (k : Nat) (items : List Malleability) : Malleability where
  dissatisfaction :=
    if items.all (·.dissatisfaction == .unique) && items.all (·.safe) then .unique else .unknown
  safe := decide (k ≤ items.length ∧ items.length - k < items.countP (·.safe))
  nonMalleable := items.all (·.nonMalleable) && items.all (·.dissatisfaction == .unique) &&
    decide (k ≤ items.length ∧ items.length - k ≤ items.countP (·.safe))

end Malleability

end LockScript
