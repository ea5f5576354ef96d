import LockScript.Context
import LockScript.LockTime
import LockScript.Threshold

/-! # Fragments

One node of a spending condition: a leaf, which tests a signature, a secret or a lock time, or one
of the ways to wrap or join other conditions. A fragment is generic in what stands for its children,
so that the same node can carry unchecked children, typed children, or results computed from them.
-/

namespace LockScript

/-- The most keys that `CHECKMULTISIG` accepts. -/
abbrev multiCap : Option Nat := some 20

/-- The most keys that a chain of `CHECKSIGADD` can test within the weight of a block. -/
abbrev multiACap : Option Nat := some 125000

/-- A condition without children. -/
inductive Leaf (κ δ : Type) where
  /-- The fragment `1`, which always holds. -/
  | one
  /-- The fragment `0`, which never holds. -/
  | zero
  /-- Written `pk_k`: pushes a key. -/
  | key (key : κ)
  /-- Written `pk_h`: takes a key from the witness and compares its hash. -/
  | keyHash (key : κ)
  | after (lock : AbsoluteLock)
  | older (lock : RelativeLock)
  /-- A hashlock: the witness must hold a secret of 32 bytes with this digest. -/
  | digest (digest : δ)
  /-- Written `multi`: signatures by `k` of the keys, in key order. -/
  | multi (keys : Threshold κ multiCap)
  /-- Written `multi_a`: the tapscript form, with one witness element for each key. -/
  | multiA (keys : Threshold κ multiACap)

/-- A fragment around one child, in the order in which fragments are sorted. -/
inductive Wrapper where
  /-- Written `a:`; works below the top of the stack by way of the other stack. -/
  | alt
  /-- Written `s:`; works below the top of the stack by a swap. -/
  | swap
  /-- Written `c:`; checks a signature under the key that its child pushes. -/
  | check
  /-- Written `d:`; runs its child only if the witness asks for it. -/
  | dupIf
  /-- Written `v:`; fails unless its child holds, and pushes nothing. -/
  | verify
  /-- Written `j:`; runs its child unless the top element is empty. -/
  | nonzero
  /-- Written `n:`; turns any true result into 1. -/
  | zeroNotEqual
  deriving DecidableEq, Ord, Repr

/-- A fragment that joins two children, in the order in which fragments are sorted. -/
inductive Connective where
  | andV
  | andB
  | orB
  | orD
  | orC
  | orI
  deriving DecidableEq, Ord, Repr

/-- One node, with `σ` in the place of its children. -/
inductive Fragment (κ δ σ : Type) where
  | leaf (leaf : Leaf κ δ)
  | wrap (wrapper : Wrapper) (x : σ)
  | pair (op : Connective) (x y : σ)
  /-- Written `andor`: the second child if the first holds, and the third if not. -/
  | andOr (x y z : σ)
  /-- Written `thresh`: exactly `k` of the children. -/
  | thresh (k : Nat) (items : List σ)

variable {κ δ σ τ : Type}

namespace Leaf

/-- Waits until an absolute lock time, in its consensus encoding. -/
def after? (value : Nat) : Except LockTimeError (Leaf κ δ) :=
  (AbsoluteLock.ofConsensus value).map after

/-- Waits until a relative lock time, in its consensus encoding, has passed. -/
def older? (value : Nat) : Except LockTimeError (Leaf κ δ) :=
  (RelativeLock.ofConsensus value).map older

/-- Asks for `k` of at most 20 keys. -/
def multi? (k : Nat) (keys : List κ) : Except ThresholdError (Leaf κ δ) :=
  (Threshold.ofList k keys).map multi

/-- Asks for `k` of at most 125000 keys. -/
def multiA? (k : Nat) (keys : List κ) : Except ThresholdError (Leaf κ δ) :=
  (Threshold.ofList k keys).map multiA

/-- The keys that a leaf names, in script order. -/
def keys : Leaf κ δ → List κ
  | key k | keyHash k => [k]
  | multi ks => ks.items
  | multiA ks => ks.items
  | one | zero | after _ | older _ | digest _ => []

end Leaf

namespace Fragment

/-- Asks for `k` of the children, where `1 ≤ k ≤ n`. -/
def thresh? (k : Nat) (items : List σ) : Except ThresholdError (Fragment κ δ σ) :=
  (Threshold.ofList k items : Except _ (Threshold σ none)).map fun threshold =>
    thresh threshold.k threshold.items

/-- The children, left to right. -/
def children : Fragment κ δ σ → List σ
  | leaf _ => []
  | wrap _ x => [x]
  | pair _ x y => [x, y]
  | andOr x y z => [x, y, z]
  | thresh _ items => items

/-- The same node over other children. -/
def map (f : σ → τ) : Fragment κ δ σ → Fragment κ δ τ
  | leaf l => leaf l
  | wrap w x => wrap w (f x)
  | pair op x y => pair op (f x) (f y)
  | andOr x y z => andOr (f x) (f y) (f z)
  | thresh k items => thresh k (items.map f)

/-- The same node over listed children, one for each of its own; missing ones are filled in. -/
def withChildren [Inhabited τ] (fragment : Fragment κ δ σ) (items : List τ) : Fragment κ δ τ :=
  match fragment with
  | leaf l => leaf l
  | wrap w _ => wrap w (items.getD 0 default)
  | pair op _ _ => pair op (items.getD 0 default) (items.getD 1 default)
  | andOr _ _ _ => andOr (items.getD 0 default) (items.getD 1 default) (items.getD 2 default)
  | thresh k _ => thresh k items

/-- Putting mapped children in place is the same as mapping them. -/
theorem withChildren_map [Inhabited τ] (f : σ → τ) (fragment : Fragment κ δ σ) :
    fragment.withChildren (fragment.children.map f) = fragment.map f := by
  cases fragment <;> rfl

end Fragment

namespace Context

variable [KeyLike κ]

/-- Whether a fragment may appear at all. Only keys and multisignatures are restricted, and children
are not looked at. -/
def checkFragment (context : Context) : Fragment κ δ σ → Except ContextError Unit
  | .leaf (.key k) | .leaf (.keyHash k) => context.checkKey k
  | .leaf (.multi ks) =>
    if context.scheme = .schnorr then .error .multiDisabled else ks.items.forM context.checkKey
  | .leaf (.multiA ks) =>
    if context.scheme = .ecdsa then .error .multiAOnlyTapscript else ks.items.forM context.checkKey
  | _ => .ok ()

/-- Whether a fragment stays non-malleable under the relay rules of its context. Outside of segwit
an `IF` takes any true value, and a key hash can be opened by either serialization. -/
def checkRelay (context : Context) (fragment : Fragment κ δ σ) : Except ContextError Unit :=
  if context = segwit ∨ context = tapscript then .ok ()
  else match fragment with
    | .leaf (.keyHash _) => .error .malleableKeyHash
    | .pair .orI _ _ => .error .malleableBranch
    | .wrap .dupIf _ => .error .malleableGuard
    | _ => .ok ()

end Context

end LockScript
