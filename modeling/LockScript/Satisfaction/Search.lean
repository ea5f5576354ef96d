import LockScript.Metrics
import LockScript.Satisfaction.Choice
import LockScript.Satisfaction.Material

/-! # Search for a witness

Every fragment gets its dissatisfaction and its satisfaction from those of its children. That of the
root is the witness of the whole.
-/

namespace LockScript

/-- Why there is no witness. -/
inductive SatisfyError where
  /-- There are satisfactions, but not with the material at hand. -/
  | missingMaterial
  /-- There is no satisfaction at all. -/
  | unsatisfiable
  deriving DecidableEq, Repr

namespace SatisfyError

/-- Whether more material could help. -/
def isRetryable : SatisfyError → Bool
  | missingMaterial => true
  | unsatisfiable => false

/-- The reason in words. -/
def message : SatisfyError → String
  | missingMaterial => "could not satisfy"
  | unsatisfiable => "impossible to satisfy"

end SatisfyError

/-- Leaves out the last of the longest signatures. -/
def dropLongest (signatures : List Bytes) : List Bytes :=
  let longest := (signatures.map List.length).foldr max 0
  (signatures.reverse.eraseP (·.length == longest)).reverse

/-- Leaves out longest signatures until `k` are left. -/
def keepShortest (k : Nat) (signatures : List Bytes) : List Bytes :=
  (List.range (signatures.length - k)).foldl (fun kept _ => dropLongest kept) signatures

/-- The first `k` of the signatures, with the empty element for all others, in order. -/
def fillSlots? (k : Nat) (signatures : List (Option Bytes)) : Option (List Bytes) :=
  let (missing, reversed) := signatures.foldl (fun (missing, reversed) signature =>
    match missing, signature with
    | left + 1, some s => (left, s :: reversed)
    | left, _ => (left, [] :: reversed)) (k, ([] : List Bytes))
  if missing = 0 then some reversed.reverse else none

/-- All that a search depends on, apart from the condition. -/
structure Search (κ : Type) where
  scheme : SignatureScheme
  material : Material κ
  leafHash : LeafHash
  /-- Whether every satisfaction of the whole holds a signature. -/
  rootIsSafe : Bool
  policy : Policy

namespace Search

variable {κ : Type} [PublicKey κ] (search : Search κ)

/-- A signature, which nobody else can supply. -/
def signature (key : κ) : Witness :=
  match search.material.signature? search.scheme search.leafHash key with
  | some s => .stack [s]
  | none => .impossible

/-- A secret, which anyone may learn. -/
def secret (digest : Digest) : Witness :=
  match search.material.secret digest with
  | some s => .stack [s.toList]
  | none => .unavailable

/-- A lock pushes nothing. A signature fixes the lock times of its transaction, so an unmet lock
cannot be met by others if one is needed. -/
def lock (met : Bool) : Outcomes where
  dissat := .impossible
  sat := ⟨if met then .empty else if search.rootIsSafe then .impossible else .unavailable, false⟩

/-- For `multi`, the signatures are in key order, and below them lies the element that the check
takes in addition. -/
def multi (k : Nat) (keys : List κ) : Outcomes where
  dissat := ⟨.stack (List.replicate (k + 1) []), false⟩
  sat :=
    let signatures :=
      keys.filterMap (search.material.signature? search.scheme search.leafHash)
    if signatures.length < k then .impossible
    else ⟨.stack ([] :: keepShortest k signatures), true⟩

/-- For `multi_a`, there is one element for each key, that of the first key on top. -/
def multiA (k : Nat) (keys : List κ) : Outcomes where
  dissat := ⟨.stack (List.replicate keys.length []), false⟩
  sat :=
    let signatures :=
      keys.reverse.map (search.material.signature? search.scheme search.leafHash)
    match fillSlots? k signatures with
    | some items => ⟨.stack items, true⟩
    | none => .impossible

/-- The outcomes of a leaf. -/
def ofLeaf : Leaf κ Digest → Outcomes
  | .one => ⟨.impossible, .trivial⟩
  | .zero => ⟨.trivial, .impossible⟩
  | .key k => ⟨.pushZero, ⟨search.signature k, true⟩⟩
  | .keyHash k =>
    let revealed : Witness := .stack [PublicKey.pushed search.scheme k]
    ⟨⟨Witness.pushZero.below revealed, false⟩, ⟨(search.signature k).below revealed, true⟩⟩
  | .after l => search.lock (search.material.meetsAfter l)
  | .older l => search.lock (search.material.meetsOlder l)
  | .digest d => ⟨⟨.stack [List.replicate 32 0], false⟩, ⟨search.secret d, false⟩⟩
  | .multi ks => search.multi ks.k ks.items
  | .multiA ks => search.multiA ks.k ks.items

end Search

namespace Outcomes

/-- Stands in for a missing child. -/
instance : Inhabited Outcomes := ⟨⟨.impossible, .impossible⟩⟩

/-- The outcomes of a wrapped fragment. -/
def wrap (wrapper : Wrapper) (x : Outcomes) : Outcomes :=
  match wrapper with
  | .alt | .swap | .check | .zeroNotEqual => x
  | .dupIf => ⟨.pushZero, x.sat.select .pushOne⟩
  | .verify => ⟨.impossible, x.sat⟩
  | .nonzero => ⟨.pushZero, x.sat⟩

/-- The outcomes of two joined fragments; the element that the first one takes is on top. A third
party gains nothing by altering a dissatisfaction, so `or_i` takes the cheapest one. -/
def pair (policy : Policy) (op : Connective) (x y : Outcomes) : Outcomes :=
  match op with
  | .andV => ⟨y.dissat.below x.sat, y.sat.below x.sat⟩
  | .andB => ⟨y.dissat.below x.dissat, y.sat.below x.sat⟩
  | .orB => ⟨y.dissat.below x.dissat, .choose policy (y.sat.below x.dissat) (y.dissat.below x.sat)⟩
  | .orD => ⟨y.dissat.below x.dissat, .choose policy x.sat (y.sat.below x.dissat)⟩
  | .orC => ⟨.impossible, .choose policy x.sat (y.sat.below x.dissat)⟩
  | .orI =>
    ⟨.cheaper (x.dissat.select .pushOne) (y.dissat.select .pushZero),
      .choose policy (x.sat.select .pushOne) (y.sat.select .pushZero)⟩

/-- The outcomes of an `andor`. -/
def andOr (policy : Policy) (x y z : Outcomes) : Outcomes :=
  ⟨z.dissat.below x.dissat, .choose policy (y.sat.below x.sat) (z.sat.below x.dissat)⟩

/-- The outcomes of a `thresh`, which is dissatisfied by dissatisfying all children. -/
def thresh (policy : Policy) (k : Nat) (items : List Outcomes) : Outcomes :=
  ⟨items.foldl (fun upper o => o.dissat.below upper) .trivial, threshold policy k items⟩

end Outcomes

namespace Search

variable {κ : Type} [PublicKey κ] (search : Search κ)

/-- The outcomes of a fragment over those of its children. -/
def ofFragment : Fragment κ Digest Outcomes → Outcomes
  | .leaf l => search.ofLeaf l
  | .wrap w x => .wrap w x
  | .pair op x y => .pair search.policy op x y
  | .andOr x y z => .andOr search.policy x y z
  | .thresh k items => .thresh search.policy k items

/-- The outcomes of a condition, found for its fragments children first. -/
def outcomes {α : Type} (t : Condition κ Digest α) : Outcomes :=
  Traversal.bottomUp (fun x items => search.ofFragment (x.fragment.withChildren items)) t

end Search

namespace Typed

variable {κ : Type} [PublicKey κ]

/-- What tapscript signatures of a condition commit to; outside of tapscript it is not used. -/
def leafHash (context : Context) (t : Typed κ Digest) : LeafHash :=
  match context.scheme with
  | .schnorr => .ofScript (t.script context).bytes
  | .ecdsa => .zero

/-- The elements of a witness, bottom of the stack first, or the reason why there are none. -/
def satisfy (context : Context) (policy : Policy) (material : Material κ) (t : Typed κ Digest) :
    Except SatisfyError (List Bytes) :=
  let search : Search κ := {
    scheme := context.scheme
    material
    leafHash := t.leafHash context
    rootIsSafe := t.type.malleability.safe
    policy }
  match (search.outcomes t).sat.witness with
  | .stack items => .ok items
  | .unavailable | .impossible =>
    .error (if t.budget.sat.isNone then .unsatisfiable else .missingMaterial)

end Typed

end LockScript
