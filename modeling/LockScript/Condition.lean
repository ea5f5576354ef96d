import LockScript.Fragment
import LockScript.Traversal

/-! # Spending conditions

A condition is a tree of fragments that carries a note at every node: its height while the tree is
being drafted, its type and resource bounds once it has been checked. Notes follow from the
fragments below them, so the order of conditions does not look at them.
-/

namespace LockScript

/-- A tree of fragments with a note at every node. -/
inductive Condition (κ δ α : Type) where
  | leaf (note : α) (leaf : Leaf κ δ)
  | wrap (note : α) (wrapper : Wrapper) (x : Condition κ δ α)
  | pair (note : α) (op : Connective) (x y : Condition κ δ α)
  | andOr (note : α) (x y z : Condition κ δ α)
  | thresh (note : α) (k : Nat) (items : List (Condition κ δ α))

namespace Condition

variable {κ δ α β : Type}

/-- The note at the root. -/
def note : Condition κ δ α → α
  | leaf note _ | wrap note _ _ | pair note _ _ _ | andOr note _ _ _ | thresh note _ _ => note

/-- The fragment at the root. -/
def fragment : Condition κ δ α → Fragment κ δ (Condition κ δ α)
  | leaf _ l => .leaf l
  | wrap _ w x => .wrap w x
  | pair _ op x y => .pair op x y
  | andOr _ x y z => .andOr x y z
  | thresh _ k items => .thresh k items

/-- Puts a note on a fragment. -/
def node (note : α) : Fragment κ δ (Condition κ δ α) → Condition κ δ α
  | .leaf l => leaf note l
  | .wrap w x => wrap note w x
  | .pair op x y => pair note op x y
  | .andOr x y z => andOr note x y z
  | .thresh k items => thresh note k items

@[simp] theorem note_node (note : α) (f : Fragment κ δ (Condition κ δ α)) :
    (node note f).note = note := by
  cases f <;> rfl

@[simp] theorem fragment_node (note : α) (f : Fragment κ δ (Condition κ δ α)) :
    (node note f).fragment = f := by
  cases f <;> rfl

@[simp] theorem node_note_fragment (t : Condition κ δ α) : node t.note t.fragment = t := by
  cases t <;> rfl

instance [Inhabited α] : Inhabited (Condition κ δ α) := ⟨leaf default .zero⟩

/-- The children of the root, left to right. -/
def children (t : Condition κ δ α) : List (Condition κ δ α) :=
  t.fragment.children

mutual

/-- The number of fragments. -/
def size : Condition κ δ α → Nat
  | leaf _ _ => 1
  | wrap _ _ x => 1 + size x
  | pair _ _ x y => 1 + size x + size y
  | andOr _ x y z => 1 + size x + size y + size z
  | thresh _ _ items => 1 + sizeAll items

/-- The number of fragments of listed conditions together. -/
def sizeAll : List (Condition κ δ α) → Nat
  | [] => 0
  | x :: rest => size x + sizeAll rest

end

theorem sizeAll_eq_sumOf (items : List (Condition κ δ α)) : sizeAll items = sumOf size items := by
  induction items with
  | nil => rfl
  | cons x rest ih => simp [sizeAll, sumOf, ih]

instance : Branching (Condition κ δ α) where
  children := children
  weight := size
  weight_children t := by
    cases t <;> simp [children, fragment, Fragment.children, size, sizeAll_eq_sumOf, sumOf]
    all_goals omega

/-- The keys of the whole tree in script order, each as often as it occurs. -/
def keys (t : Condition κ δ α) : List κ :=
  (Traversal.preorder t).flatMap fun x => match x.fragment with
    | .leaf l => l.keys
    | _ => []

end Condition

namespace Leaf

variable {κ δ : Type} [Ord κ] [Ord δ]

/-- The place of a leaf in the order of fragments. Multisignatures come after all that has children.
-/
def rank : Leaf κ δ → Nat
  | one => 0
  | zero => 1
  | key _ => 2
  | keyHash _ => 3
  | after _ => 4
  | older _ => 5
  | digest _ => 6
  | multi _ => 16
  | multiA _ => 17

/-- Leaves are ordered by kind, then by what they name. -/
def order : Leaf κ δ → Leaf κ δ → Ordering
  | key a, key b => compare a b
  | keyHash a, keyHash b => compare a b
  | after a, after b => compare a b
  | older a, older b => compare a b
  | digest a, digest b => compare a b
  | multi a, multi b => compare a b
  | multiA a, multiA b => compare a b
  | a, b => compare a.rank b.rank

end Leaf

namespace Condition

variable {κ δ α β : Type} [Ord κ] [Ord δ]

/-- The place of the root in the order of fragments. -/
def rank : Condition κ δ α → Nat
  | leaf _ l => l.rank
  | wrap _ _ _ => 7
  | pair _ .andV _ _ => 8
  | pair _ .andB _ _ => 9
  | andOr _ _ _ _ => 10
  | pair _ .orB _ _ => 11
  | pair _ .orD _ _ => 12
  | pair _ .orC _ _ => 13
  | pair _ .orI _ _ => 14
  | thresh _ _ _ => 15

mutual

/-- Conditions are ordered by the fragment at the root, then by its arguments left to right. -/
def order : Condition κ δ α → Condition κ δ β → Ordering
  | leaf _ l, leaf _ m => l.order m
  | wrap _ v x, wrap _ w x' => (compare v w).then (order x x')
  | pair _ op x y, pair _ op' x' y' => (compare op op').then ((order x x').then (order y y'))
  | andOr _ x y z, andOr _ x' y' z' => (order x x').then ((order y y').then (order z z'))
  | thresh _ k items, thresh _ k' items' => (compare k k').then (orderAll items items')
  | t, u => compare t.rank u.rank

/-- Lists of conditions are ordered item by item, and a list comes before its extensions. -/
def orderAll : List (Condition κ δ α) → List (Condition κ δ β) → Ordering
  | [], [] => .eq
  | [], _ :: _ => .lt
  | _ :: _, [] => .gt
  | x :: rest, y :: rest' => (order x y).then (orderAll rest rest')

end

instance : Ord (Condition κ δ α) where
  compare := order

/-- Conditions are equal if their fragments are, whatever their notes. -/
instance : BEq (Condition κ δ α) where
  beq t u := order t u == .eq

end Condition

end LockScript
