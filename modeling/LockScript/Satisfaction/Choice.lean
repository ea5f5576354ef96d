import LockScript.Satisfaction.Witness

/-! # Choosing between satisfactions

A satisfaction is a witness together with whether it holds a signature. Where a condition leaves a
choice, either the cheapest witness is taken, or the cheapest among those that no third party can
exchange for another.
-/

namespace LockScript

/-- A witness, and whether it holds a signature, which third parties cannot add or alter. -/
structure Satisfaction where
  witness : Witness
  hasSignature : Bool
  deriving DecidableEq, Repr

/-- How a fragment can be dissatisfied and satisfied. -/
structure Outcomes where
  dissat : Satisfaction
  sat : Satisfaction
  deriving DecidableEq, Repr

/-- Which witnesses to take. -/
inductive Policy where
  /-- The cheapest that no third party can alter. -/
  | nonMalleable
  /-- The cheapest. -/
  | malleable
  deriving DecidableEq, Repr

namespace Satisfaction

/-- There is none, and nobody can supply one. -/
def impossible : Satisfaction := ⟨.impossible, false⟩

/-- Nothing to push. -/
def trivial : Satisfaction := ⟨.empty, false⟩

/-- The empty element. -/
def pushZero : Satisfaction := ⟨.pushZero, false⟩

/-- Both, the first below the second on the stack. -/
def below (lower upper : Satisfaction) : Satisfaction :=
  ⟨lower.witness.below upper.witness, lower.hasSignature || upper.hasSignature⟩

/-- Puts the element that chooses a branch on top. -/
def select (s : Satisfaction) (selector : Witness) : Satisfaction :=
  { s with witness := s.witness.below selector }

/-- The cheaper of two satisfactions of which no third party can put the other in its place. Two
without a signature could be exchanged for each other; a signature can be left out but not forged,
so of one with and one without a signature the latter stands. -/
def cheaperNonMalleable (a b : Satisfaction) : Satisfaction :=
  if a.witness = .impossible then b
  else if b.witness = .impossible then a
  else match a.hasSignature, b.hasSignature with
    | false, false => ⟨.unavailable, false⟩
    | false, true => ⟨a.witness, false⟩
    | true, false => ⟨b.witness, false⟩
    | true, true => ⟨a.witness.cheaper b.witness, true⟩

/-- The cheaper of two satisfactions. -/
def cheaper (a b : Satisfaction) : Satisfaction :=
  match a.witness, b.witness with
  | .impossible, _ | .unavailable, _ => b
  | _, .impossible | _, .unavailable => a
  | .stack _, .stack _ => ⟨a.witness.cheaper b.witness, a.hasSignature && b.hasSignature⟩

/-- The better of two satisfactions. -/
def choose (policy : Policy) (a b : Satisfaction) : Satisfaction :=
  match policy with
  | .nonMalleable => cheaperNonMalleable a b
  | .malleable => cheaper a b

end Satisfaction

/-- What it costs to satisfy a child of a threshold rather than to dissatisfy it. -/
inductive Growth where
  /-- The child cannot be dissatisfied, so it comes first. -/
  | forced
  | bytes (difference : Int)
  /-- The child cannot be satisfied, so it comes last. -/
  | missing
  deriving DecidableEq, Ord, Repr

namespace Outcomes

/-- The bytes that satisfying adds. -/
def growth (o : Outcomes) : Growth :=
  match o.sat.witness, o.dissat.witness with
  | .unavailable, _ | .impossible, _ => .missing
  | _, .unavailable | _, .impossible => .forced
  | .stack s, .stack d => .bytes (Int.ofNat (witnessSize s) - Int.ofNat (witnessSize d))

/-- The positions of the children, cheapest first; children of one cost keep their order. -/
def byGrowth (items : List Outcomes) : List Nat :=
  let keyed := items.zipIdx.map fun (o, i) => (o.growth, i)
  (keyed.mergeSort fun a b => (compare a.1 b.1).isLE).map Prod.snd

/-- The positions of the children: those that can be satisfied first, of these the ones without a
signature, and of these the cheapest. -/
def bySignature (items : List Outcomes) : List Nat :=
  let keyed := items.zipIdx.map fun (o, i) =>
    ((o.sat.witness == .impossible, o.sat.hasSignature, o.growth), i)
  (keyed.mergeSort fun a b =>
    ((compare a.1.1 b.1.1).then ((compare a.1.2.1 b.1.2.1).then
      (compare a.1.2.2 b.1.2.2))).isLE).map Prod.snd

/-- Satisfies the children at the chosen positions and dissatisfies the others, the first child on
top of the stack. -/
def combine (chosen : List Nat) (items : List Outcomes) : Satisfaction :=
  let parts := items.zipIdx.map fun (o, i) => if chosen.contains i then o.sat else o.dissat
  ⟨parts.foldl (fun upper part => part.witness.below upper) .empty, parts.any (·.hasSignature)⟩

/-- The cheapest way to satisfy `k` of the children. Sizes add up, so the `k` that grow least are
taken. -/
def thresholdMalleable (k : Nat) (items : List Outcomes) : Satisfaction :=
  if k = 0 ∨ items.length < k then .impossible
  else combine ((byGrowth items).take k) items

/-- The cheapest way to satisfy `k` of the children that no third party can alter. Satisfactions
without a signature must all be taken: one that is left could be exchanged for one that is not. -/
def thresholdNonMalleable (k : Nat) (items : List Outcomes) : Satisfaction :=
  if k = 0 ∨ items.length < k then .impossible
  else
    let positions := bySignature items
    let at? (place : Nat) := positions[place]?.bind (items[·]?)
    let lastIsImpossible := (at? (k - 1)).any (·.sat.witness == .impossible)
    let nextIsFree := (at? k).any fun o => !o.sat.hasSignature && o.sat.witness != .impossible
    if lastIsImpossible then .impossible
    else if nextIsFree then ⟨.unavailable, false⟩
    else combine (positions.take k) items

/-- The best way to satisfy `k` of the children. -/
def threshold (policy : Policy) (k : Nat) (items : List Outcomes) : Satisfaction :=
  match policy with
  | .nonMalleable => thresholdNonMalleable k items
  | .malleable => thresholdMalleable k items

end Outcomes

end LockScript
