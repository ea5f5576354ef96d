import LockScript.Sum

/-! # Traversals

Three orders in which to visit a tree, each run with an explicit stack, and the bottom-up pass that
computes a result for every node from the results of its children.

A tree is anything with children; a weight that drops from a node to its children taken together is
what makes every traversal end.
-/

namespace LockScript

/-- A type of trees. -/
class Branching (σ : Type) where
  /-- The children of a node, left to right. -/
  children : σ → List σ
  /-- A number that bounds the nodes of a tree. -/
  weight : σ → Nat
  /-- A tree outweighs its children together. -/
  weight_children : ∀ tree, sumOf weight (children tree) < weight tree

namespace Traversal

open Branching (children weight)

variable {σ : Type} [Branching σ]

/-- The weight of trees that wait on a stack. -/
def totalWeight (trees : List σ) : Nat :=
  sumOf weight trees

theorem totalWeight_children_append (tree : σ) (rest : List σ) :
    totalWeight (children tree ++ rest) < totalWeight (tree :: rest) := by
  have drop := Branching.weight_children tree
  simp only [totalWeight, sumOf_append, sumOf]
  omega

theorem totalWeight_children_lt (tree : σ) (rest : List σ) :
    totalWeight (children tree) < totalWeight (tree :: rest) := by
  have drop := totalWeight_children_append tree rest
  simp only [totalWeight, sumOf_append] at drop ⊢
  omega

theorem totalWeight_lt_cons (tree : σ) (rest : List σ) :
    totalWeight rest < totalWeight (tree :: rest) := by
  have drop := totalWeight_children_append tree rest
  simp only [totalWeight, sumOf_append] at drop ⊢
  omega

/-- Visits the waiting trees one after the other, each node before its children. -/
def preorderFrom : List σ → List σ
  | [] => []
  | tree :: rest => tree :: preorderFrom (children tree ++ rest)
termination_by waiting => totalWeight waiting
decreasing_by exact totalWeight_children_append tree rest

/-- The nodes of a tree, parents before children. -/
def preorder (tree : σ) : List σ :=
  preorderFrom [tree]

/-- A node of a post-order traversal, with its position and the positions of its children. -/
structure PostorderItem (σ : Type) where
  node : σ
  index : Nat
  childIndices : List Nat

/-- A node on the stack of a post-order traversal. -/
structure Pending (σ : Type) where
  node : σ
  /-- The positions of the children visited so far; none until the children are on the stack. -/
  positions : Option (Array Nat)
  /-- Where on the stack the parent waits. -/
  parent : Option Nat

namespace Pending

/-- The steps that a node can still take, those of the nodes below it included. -/
def weight (pending : Pending σ) : Nat :=
  if pending.positions.isNone then 2 * Branching.weight pending.node else 1

/-- Notes the position of a child. -/
def record (position : Nat) (pending : Pending σ) : Pending σ :=
  { pending with positions := pending.positions.map (·.push position) }

/-- Trees on the stack, the first on top. -/
def stacked (parent : Option Nat) (trees : List σ) : List (Pending σ) :=
  trees.reverse.map (⟨·, none, parent⟩)

theorem weight_record (position : Nat) (pending : Pending σ) :
    (pending.record position).weight = pending.weight := by
  simp [weight, record]

theorem sum_weight_stacked (parent : Option Nat) (trees : List σ) :
    sumOf Pending.weight (stacked parent trees) = 2 * totalWeight trees := by
  induction trees with
  | nil => rfl
  | cons tree rest ih =>
    simp only [stacked, totalWeight] at ih
    simp only [stacked, totalWeight, List.reverse_cons, List.map_append, List.map_cons,
      List.map_nil, sumOf_append, ih, sumOf, weight, Option.isNone_none, if_true]
    omega

theorem sum_weight_modify (stack : List (Pending σ)) (place position : Nat) :
    sumOf Pending.weight (stack.modify place (·.record position)) =
      sumOf Pending.weight stack := by
  induction stack generalizing place with
  | nil => simp
  | cons pending rest ih => cases place <;> simp [sumOf, weight_record, ih]

/-- The steps of a stack are those of its top and those of the rest. -/
theorem sum_weight_of_back {stack : Array (Pending σ)} {top : Pending σ}
    (back : stack.back? = some top) :
    sumOf Pending.weight stack.toList = sumOf Pending.weight stack.pop.toList + top.weight := by
  obtain ⟨rest, rfl⟩ := Array.back?_eq_some_iff.mp back
  simp [sumOf_append, sumOf]

end Pending

/-- Runs the stack until it is empty; `index` is the next position. A node goes back on the stack
below its children the first time it is on top, and is visited the second time. -/
def postorderFrom (stack : Array (Pending σ)) (index : Nat) : List (PostorderItem σ) :=
  match _top : stack.back? with
  | none => []
  | some top =>
    let rest := stack.pop
    match state : top.positions with
    | none =>
      let opened := { top with positions := some #[] }
      postorderFrom (rest.push opened ++ Pending.stacked (some rest.size) (children top.node)) index
    | some positions =>
      let noted := match top.parent with
        | none => rest
        | some place => rest.modify place (·.record index)
      ⟨top.node, index, positions.toList⟩ :: postorderFrom noted (index + 1)
termination_by sumOf Pending.weight stack.toList
decreasing_by
  · have steps := Pending.sum_weight_of_back _top
    have drop := Branching.weight_children top.node
    have below := Pending.sum_weight_stacked (some stack.pop.size) (children top.node)
    simp only [Pending.weight, state, Option.isNone_none, if_true] at steps
    simp only [totalWeight] at below
    simp only [Array.toList_appendList, Array.toList_push, sumOf_append, sumOf, below, steps,
      Pending.weight, Option.isNone_some, Bool.false_eq_true, if_false]
    omega
  · have steps := Pending.sum_weight_of_back _top
    simp only [Pending.weight, state, Option.isNone_some, Bool.false_eq_true, if_false] at steps
    cases top.parent with
    | none => simp only [steps]; omega
    | some place => simp only [Array.toList_modify, Pending.sum_weight_modify, steps]; omega

/-- The nodes of a tree, children before parents. -/
def postorder (tree : σ) : List (PostorderItem σ) :=
  postorderFrom #[⟨tree, none, none⟩] 0

/-- One of the visits that a node gets: before its children, and again after each of them. -/
structure Visit (σ : Type) where
  node : σ
  /-- The position of the node among the first visits. -/
  index : Nat
  /-- The children that were visited before. -/
  childrenDone : Nat
  /-- Whether this is the last visit. -/
  isLast : Bool
  parent : Option σ

/-- What waits on the stack of a traversal that returns to each node. -/
inductive VisitTask (σ : Type) where
  /-- A tree that was not looked at yet, and its parent. -/
  | enter (tree : σ) (parent : Option σ)
  /-- A later visit of a node. -/
  | again (visit : Visit σ)

/-- The steps that a task can still take. -/
def VisitTask.weight : VisitTask σ → Nat
  | enter tree _ => 2 * Branching.weight tree - 1
  | again _ => 1

/-- Enters each child in turn and comes back to the node after it; `before` of its `arity` children
are done. -/
def VisitTask.rounds (node : σ) (parent : Option σ) (index arity : Nat) :
    List σ → Nat → List (VisitTask σ)
  | [], _ => []
  | child :: rest, before =>
    .enter child (some node) ::
      .again ⟨node, index, before + 1, before + 1 == arity, parent⟩ ::
      rounds node parent index arity rest (before + 1)

/-- A child and the return after it take two steps for each unit of the child's weight. -/
theorem VisitTask.sum_weight_rounds (node : σ) (parent : Option σ) (index arity : Nat)
    (trees : List σ) (before : Nat) :
    sumOf VisitTask.weight (VisitTask.rounds node parent index arity trees before) =
      2 * totalWeight trees := by
  induction trees generalizing before with
  | nil => rfl
  | cons tree rest ih =>
    have tail := ih (before + 1)
    have positive := Branching.weight_children tree
    simp only [totalWeight] at tail
    simp only [rounds, totalWeight, sumOf, VisitTask.weight, tail]
    omega

/-- Runs the tasks; `index` is the position of the next node that is visited first. -/
def visitsFrom (tasks : List (VisitTask σ)) (index : Nat) : List (Visit σ) :=
  match tasks with
  | [] => []
  | .enter tree parent :: rest =>
    let below := children tree
    ⟨tree, index, 0, below.isEmpty, parent⟩ ::
      visitsFrom (VisitTask.rounds tree parent index below.length below 0 ++ rest) (index + 1)
  | .again visit :: rest => visit :: visitsFrom rest index
termination_by sumOf VisitTask.weight tasks
decreasing_by
  · have drop := Branching.weight_children tree
    have steps :=
      VisitTask.sum_weight_rounds tree parent index (children tree).length (children tree) 0
    simp only [totalWeight] at steps
    simp only [sumOf_append, sumOf, steps, VisitTask.weight]
    omega
  · simp [sumOf, VisitTask.weight]

/-- The nodes of a tree, each once before its children and once more after each child. -/
def visits (tree : σ) : List (Visit σ) :=
  visitsFrom [.enter tree none] 0

variable {β : Type} {m : Type → Type} [Monad m]

/-- One step of a bottom-up pass: the result of a node goes behind those of the nodes before it. The
step gets the node and the results of its children, which are looked up by their positions. -/
def visit [Inhabited β] (step : σ → List β → m β) (results : Array β) (node : σ)
    (positions : List Nat) : m (Array β) := do
  let result ← step node (positions.map (results.getD · default))
  return results.push result

/-- Computes a result for every node, children first, and gives that of the root. -/
def bottomUpM [Inhabited β] (step : σ → List β → m β) (tree : σ) : m β := do
  let results ← (postorder tree).foldlM (fun results item =>
    visit step results item.node item.childIndices) #[]
  return results.back?.getD default

/-- The bottom-up pass with a step that cannot fail. -/
def bottomUp [Inhabited β] (step : σ → List β → β) (tree : σ) : β :=
  Id.run (bottomUpM (fun node results => pure (step node results)) tree)

end Traversal

/-- A tree of labels in which each node has any number of children. -/
inductive LabelTree (α : Type) where
  | node (label : α) (children : List (LabelTree α))

namespace LabelTree

variable {α : Type}

instance [Inhabited α] : Inhabited (LabelTree α) := ⟨node default []⟩

/-- The label of the root. -/
def label : LabelTree α → α
  | node label _ => label

/-- The children of the root, left to right. -/
def children : LabelTree α → List (LabelTree α)
  | node _ children => children

mutual

/-- The number of nodes. -/
def size : LabelTree α → Nat
  | node _ children => 1 + sizeAll children

/-- The number of nodes of listed trees together. -/
def sizeAll : List (LabelTree α) → Nat
  | [] => 0
  | tree :: rest => size tree + sizeAll rest

end

theorem sizeAll_eq_sumOf (trees : List (LabelTree α)) : sizeAll trees = sumOf size trees := by
  induction trees with
  | nil => rfl
  | cons tree rest ih => simp [sizeAll, sumOf, ih]

instance : Branching (LabelTree α) where
  children := children
  weight := size
  weight_children tree := by
    cases tree with
    | node label below => simp only [children, size, ← sizeAll_eq_sumOf]; omega

end LabelTree

end LockScript
