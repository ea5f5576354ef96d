import LockScript.Condition

/-! # Drafts

A draft is a condition whose shape is known to be sound but whose types are not: every leaf is in
range and allowed in its context, every threshold has `1 ≤ k ≤ n`, and no tree is too high. Each
constructor checks its own arguments, so that nothing else can be drafted.
-/

namespace LockScript

/-- Trees stay below this height. -/
def heightLimit : Nat := 402

/-- Why a fragment could not be drafted. -/
inductive DraftError where
  | tooHigh (height : Nat)
  | threshold (error : ThresholdError)
  | lockTime (error : LockTimeError)
  | context (error : ContextError)
  deriving DecidableEq, Repr

namespace DraftError

/-- The reason in words. -/
def message : DraftError → String
  | tooHigh height => s!"maximum recursion depth exceeded (max {heightLimit}, got {height})"
  | threshold error => error.message
  | lockTime error => error.message
  | context error => error.message

/-- The messages of the errors that this one wraps. -/
def causes : DraftError → List String
  | tooHigh _ => []
  | threshold error => [error.message]
  | lockTime error => [error.message]
  | context error => [error.message]

end DraftError

/-- A condition of known shape, with the height of every subtree. -/
abbrev Draft (κ δ : Type) := Condition κ δ Nat

namespace Draft

variable {κ δ : Type}

/-- The height of the tree; a leaf has height zero. -/
def height (draft : Draft κ δ) : Nat :=
  draft.note

/-- The draft `1`. -/
def one : Draft κ δ := .leaf 0 .one

/-- The draft `0`. -/
def zero : Draft κ δ := .leaf 0 .zero

/-- A hashlock: `sha256`, `hash256`, `ripemd160` or `hash160`, as the digest says. -/
def digest (d : δ) : Draft κ δ := .leaf 0 (.digest d)

/-- Joins drafts, one level above the highest of them. -/
def compound (fragment : Fragment κ δ (Draft κ δ)) : Except DraftError (Draft κ δ) :=
  let height := (fragment.children.map Draft.height).foldr max 0 + 1
  if height < heightLimit then .ok (.node height fragment) else .error (.tooHigh height)

/-- A wrapped draft. -/
def wrap (wrapper : Wrapper) (x : Draft κ δ) : Except DraftError (Draft κ δ) :=
  compound (.wrap wrapper x)

/-- Two drafts joined. -/
def pair (op : Connective) (x y : Draft κ δ) : Except DraftError (Draft κ δ) :=
  compound (.pair op x y)

/-- Drafts `andor(X,Y,Z)`. -/
def andOr (x y z : Draft κ δ) : Except DraftError (Draft κ δ) :=
  compound (.andOr x y z)

/-- Drafts `t:X`, short for `and_v(X,1)`. -/
def t (x : Draft κ δ) : Except DraftError (Draft κ δ) :=
  pair .andV x one

/-- Drafts `l:X`, short for `or_i(0,X)`. -/
def l (x : Draft κ δ) : Except DraftError (Draft κ δ) :=
  pair .orI zero x

/-- Drafts `u:X`, short for `or_i(X,0)`. -/
def u (x : Draft κ δ) : Except DraftError (Draft κ δ) :=
  pair .orI x zero

/-- Drafts `and_n(X,Y)`, short for `andor(X,Y,0)`. -/
def andN (x y : Draft κ δ) : Except DraftError (Draft κ δ) :=
  andOr x y zero

/-- Drafts `thresh(k,X,…)`. -/
def thresh (k : Nat) (items : List (Draft κ δ)) : Except DraftError (Draft κ δ) := do
  compound (← (Fragment.thresh? k items).mapError .threshold)

variable [KeyLike κ] (context : Context)

/-- A leaf that its context allows. -/
def ofLeaf (leaf : Leaf κ δ) : Except DraftError (Draft κ δ) := do
  (context.checkFragment (.leaf leaf : Fragment κ δ Empty)).mapError .context
  return .leaf 0 leaf

/-- Drafts `pk_k(key)`. -/
def key (k : κ) : Except DraftError (Draft κ δ) :=
  ofLeaf context (.key k)

/-- Drafts `pk_h(key)`. -/
def keyHash (k : κ) : Except DraftError (Draft κ δ) :=
  ofLeaf context (.keyHash k)

/-- Drafts `pk(key)`, short for `c:pk_k(key)`. -/
def pk (k : κ) : Except DraftError (Draft κ δ) := do
  wrap .check (← key context k)

/-- Drafts `pkh(key)`, short for `c:pk_h(key)`. -/
def pkh (k : κ) : Except DraftError (Draft κ δ) := do
  wrap .check (← keyHash context k)

/-- Drafts `after(n)`. -/
def after (value : Nat) : Except DraftError (Draft κ δ) := do
  ofLeaf context (← (Leaf.after? value).mapError .lockTime)

/-- Drafts `older(n)`. -/
def older (value : Nat) : Except DraftError (Draft κ δ) := do
  ofLeaf context (← (Leaf.older? value).mapError .lockTime)

/-- Drafts `multi(k,key,…)`. -/
def multi (k : Nat) (keys : List κ) : Except DraftError (Draft κ δ) := do
  ofLeaf context (← (Leaf.multi? k keys).mapError .threshold)

/-- Drafts `multi_a(k,key,…)`. -/
def multiA (k : Nat) (keys : List κ) : Except DraftError (Draft κ δ) := do
  ofLeaf context (← (Leaf.multiA? k keys).mapError .threshold)

end Draft

end LockScript
