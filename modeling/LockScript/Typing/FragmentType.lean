import LockScript.Fragment
import LockScript.Typing.Soundness
import LockScript.Typing.Malleability

/-! # Fragment types

The type of a fragment is its soundness and its malleability. It follows from the types of the
children, and a fragment whose children do not fit has none.
-/

namespace LockScript

/-- The type of a fragment. -/
structure FragmentType where
  soundness : Soundness
  malleability : Malleability
  deriving DecidableEq, Ord, Repr

namespace FragmentType

instance : Inhabited FragmentType := ⟨⟨.zero, .zero⟩⟩

/-- The type of `1`. -/
def one : FragmentType := ⟨.one, .one⟩

/-- The type of `0`. -/
def zero : FragmentType := ⟨.zero, .zero⟩

/-- The type of `pk_k`. -/
def key : FragmentType := ⟨.key, .key⟩

/-- The type of `pk_h`. -/
def keyHash : FragmentType := ⟨.keyHash, .key⟩

/-- The type of `multi`. -/
def multi : FragmentType := ⟨.multi, .key⟩

/-- The type of `multi_a`. -/
def multiA : FragmentType := ⟨.multiA, .key⟩

/-- Any hashlock. -/
def digest : FragmentType := ⟨.digest, .digest⟩

/-- The type of `after` and `older`. -/
def lock : FragmentType := ⟨.lock, .lock⟩

variable {κ δ σ : Type}

/-- The type of a leaf. -/
def ofLeaf : Leaf κ δ → FragmentType
  | .one => one
  | .zero => zero
  | .key _ => key
  | .keyHash _ => keyHash
  | .after _ | .older _ => lock
  | .digest _ => digest
  | .multi _ => multi
  | .multiA _ => multiA

/-- The type of a wrapped fragment. `a:`, `s:`, `c:` and `n:` leave malleability as it is. -/
def wrap (wrapper : Wrapper) (x : FragmentType) : Except TypeFault FragmentType :=
  match wrapper with
  | .alt => x.soundness.alt.map (⟨·, x.malleability⟩)
  | .swap => x.soundness.swap.map (⟨·, x.malleability⟩)
  | .check => x.soundness.check.map (⟨·, x.malleability⟩)
  | .dupIf => x.soundness.dupIf.map (⟨·, x.malleability.dupIf⟩)
  | .verify => x.soundness.verify.map (⟨·, x.malleability.verify⟩)
  | .nonzero => x.soundness.nonzero.map (⟨·, x.malleability.nonzero⟩)
  | .zeroNotEqual => x.soundness.zeroNotEqual.map (⟨·, x.malleability⟩)

/-- The type of two joined fragments. -/
def pair (op : Connective) (x y : FragmentType) : Except TypeFault FragmentType :=
  match op with
  | .andV => (Soundness.andV x.soundness y.soundness).map (⟨·, .andV x.malleability y.malleability⟩)
  | .andB => (Soundness.andB x.soundness y.soundness).map (⟨·, .andB x.malleability y.malleability⟩)
  | .orB => (Soundness.orB x.soundness y.soundness).map (⟨·, .orB x.malleability y.malleability⟩)
  | .orD => (Soundness.orD x.soundness y.soundness).map (⟨·, .orD x.malleability y.malleability⟩)
  | .orC => (Soundness.orC x.soundness y.soundness).map (⟨·, .orC x.malleability y.malleability⟩)
  | .orI => (Soundness.orI x.soundness y.soundness).map (⟨·, .orI x.malleability y.malleability⟩)

/-- The type of an `andor`. -/
def andOr (x y z : FragmentType) : Except TypeFault FragmentType :=
  (Soundness.andOr x.soundness y.soundness z.soundness).map
    (⟨·, .andOr x.malleability y.malleability z.malleability⟩)

/-- The type of a `thresh`. -/
def threshold (k : Nat) (items : List FragmentType) : Except TypeFault FragmentType :=
  (Soundness.threshold (items.map soundness)).map (⟨·, .threshold k (items.map malleability)⟩)

/-- The type of a fragment over the types of its children. -/
def ofFragment : Fragment κ δ FragmentType → Except TypeFault FragmentType
  | .leaf l => .ok (ofLeaf l)
  | .wrap w x => wrap w x
  | .pair op x y => pair op x y
  | .andOr x y z => andOr x y z
  | .thresh k items => threshold k items

/-- Only fragments of base type `B` may stand at the top of a script. -/
def isTopLevel (type : FragmentType) : Bool :=
  type.soundness.base == .B

/-- The base type, a slash, and a letter for each property that holds. -/
def text (type : FragmentType) : String :=
  let s := type.soundness
  let m := type.malleability
  let flags : List (Char × Bool) := [
    ('z', s.input == .zero), ('o', s.input.isOne), ('n', s.input.isNonzero),
    ('d', s.dissatisfiable), ('u', s.unit), ('e', m.dissatisfaction == .unique),
    ('f', m.dissatisfaction == .none), ('s', m.safe), ('m', m.nonMalleable)]
  s.base.text ++ "/" ++ String.ofList ((flags.filter Prod.snd).map Prod.fst)

end FragmentType

end LockScript
