import LockScript.Proofs.Occurrences

/-! # Iterators over trees

Whoever asks for one node after the other gets each of them from a stack that is kept between the
answers. There is one such iterator for each order, and what it gives until it ends is the list of the
traversal. The post-order notes positions in nodes further down on its stack, by the place where they
wait; they always wait there, so no note is lost. The lists in turn are those of the recursion, read off
the addresses: a node, its position among all addresses, and the positions of the nodes around it.

Positions are natural numbers. A counter of 64 bits shows the same ones for the first `2 ^ 64` items.
-/

namespace LockScript

namespace Traversal

open Branching (children)

/-! ## Asking for items -/

/-- What an iterator does in one round. -/
inductive Turn (α state : Type) where
  /-- It has no item left. -/
  | ended
  /-- It gives an item, and goes on from another state when it is asked for the next one. -/
  | gives (item : α) (later : state)
  /-- It goes on from another state before it gives an item. -/
  | works (later : state)
  /-- It looks for something outside of its stack. -/
  | fails

/-- The items that an iterator gives from a state on until it ends. -/
inductive Yields {α state : Type} (turn : state → Turn α state) : state → List α → Prop where
  | ended {now : state} (stop : turn now = .ended) : Yields turn now []
  | gives {now later : state} {item : α} {items : List α} (step : turn now = .gives item later)
      (more : Yields turn later items) : Yields turn now (item :: items)
  | works {now later : state} {items : List α} (step : turn now = .works later)
      (more : Yields turn later items) : Yields turn now items

/-! ## Parents on the stack -/

/-- Every node on the stack that has a parent has it further down. -/
def Linked {σ : Type} (stack : Array (Pending σ)) : Prop :=
  ∀ (place : Nat) (pending : Pending σ), stack[place]? = some pending →
    ∀ parent ∈ pending.parent, parent < place

namespace Linked

variable {σ : Type} {stack : Array (Pending σ)}

theorem empty : Linked (#[] : Array (Pending σ)) :=
  fun _ _ found => by simp at found

theorem pop (linked : Linked stack) : Linked stack.pop := by
  intro place pending found
  rw [Array.getElem?_pop] at found
  split at found
  · exact linked place pending found
  · cases found

theorem push (linked : Linked stack) {pending : Pending σ}
    (inside : ∀ parent ∈ pending.parent, parent < stack.size) : Linked (stack.push pending) := by
  intro place other found
  rw [Array.getElem?_push] at found
  split at found
  next last =>
    cases found
    exact last ▸ inside
  next => exact linked place other found

theorem stacked (linked : Linked stack) {parent : Nat} (inside : parent < stack.size)
    (trees : List σ) : Linked (stack ++ Pending.stacked (some parent) trees) := by
  rw [Pending.stacked]
  -- the order in which the children are put on the stack does not matter
  generalize trees.reverse = trees
  induction trees generalizing stack with
  | nil => simpa using linked
  | cons tree rest ih =>
    have first : Linked (stack.push ⟨tree, none, some parent⟩) := linked.push (by simpa using inside)
    have others := ih first (by rw [Array.size_push]; omega)
    simpa using others

/-- Positions that are noted leave every parent where it is. -/
theorem noted (linked : Linked stack) (parent : Option Nat) (index : Nat) :
    Linked (Pending.noted stack parent [index]) := by
  cases parent with
  | none => exact linked
  | some place =>
    intro other pending found
    rw [Pending.noted, List.foldl_cons, List.foldl_nil, Array.getElem?_modify] at found
    split at found
    next =>
      obtain ⟨before, stood, rfl⟩ := Option.map_eq_some_iff.mp found
      exact linked other before stood
    next => exact linked other pending found

/-- What is below the top of the stack is linked, and holds the parent of the top. -/
theorem of_push {top : Pending σ} (linked : Linked (stack.push top)) :
    Linked stack ∧ ∀ parent ∈ top.parent, parent < stack.size := by
  have below := linked.pop
  rw [Array.pop_push] at below
  exact ⟨below, linked stack.size top Array.getElem?_push_size⟩

end Linked

/-! ## The iterators -/

variable {σ : Type} [Branching σ]

/-- Gives the tree on top of the stack, and puts its children in its place. -/
def preorderTurn : List σ → Turn σ (List σ)
  | [] => .ended
  | tree :: rest => .gives tree (children tree ++ rest)

/-- Opens the node on top of the stack if its children were not yet on it, and gives it otherwise. The
node at the place that it knows for its parent notes the position. -/
def postorderTurn (now : Array (Pending σ) × Nat) :
    Turn (PostorderItem σ) (Array (Pending σ) × Nat) :=
  match now.1.back? with
  | none => .ended
  | some top =>
    let rest := now.1.pop
    match top.positions with
    | none =>
      let opened := { top with positions := some #[] }
      .works (rest.push opened ++ Pending.stacked (some rest.size) (children top.node), now.2)
    | some positions =>
      let item := ⟨top.node, now.2, positions.toList⟩
      match top.parent with
      | none => .gives item (rest, now.2 + 1)
      | some place =>
        if place < rest.size then .gives item (rest.modify place (·.record now.2), now.2 + 1)
        else .fails

/-- A node on the stack of a walk. -/
structure Paused (σ : Type) where
  node : σ
  /-- Its position and the children entered so far; none before its first visit. -/
  progress : Option (Nat × Nat)

/-- The stack after a visit of a node: the next of its children, if it has one, and then the node
itself, which waits for the visit after that child. -/
def Paused.after (node : σ) (position done : Nat) (rest : List (Paused σ)) : List (Paused σ) :=
  match (children node)[done]? with
  | some child => ⟨child, none⟩ :: ⟨node, some (position, done + 1)⟩ :: rest
  | none => rest

/-- Gives a visit of the node on top of the stack. What is below it on the stack is its parent. -/
def visitTurn : List (Paused σ) × Nat → Turn (Visit σ) (List (Paused σ) × Nat)
  | ([], _) => .ended
  | (⟨node, progress⟩ :: rest, index) =>
    let (position, done) := progress.getD (index, 0)
    .gives ⟨node, position, done, done == (children node).length, rest.head?.map (·.node)⟩
      (Paused.after node position done rest, if progress.isNone then index + 1 else index)

/-! ## Runs -/

theorem yields_preorderFrom (waiting : List σ) : Yields preorderTurn waiting (preorderFrom waiting) := by
  induction waiting using preorderFrom.induct with
  | case1 =>
    rw [preorderFrom]
    exact .ended rfl
  | case2 tree rest ih =>
    rw [preorderFrom]
    exact .gives rfl ih

theorem postorderTurn_open (stack : Array (Pending σ)) (node : σ) (parent : Option Nat)
    (index : Nat) :
    postorderTurn (stack.push ⟨node, none, parent⟩, index) =
      .works (stack.push ⟨node, some #[], parent⟩ ++
        Pending.stacked (some stack.size) (children node), index) := by
  simp [postorderTurn]

theorem postorderTurn_visit {stack : Array (Pending σ)} {parent : Option Nat}
    (inside : ∀ place ∈ parent, place < stack.size) (node : σ) (found : Array Nat) (index : Nat) :
    postorderTurn (stack.push ⟨node, some found, parent⟩, index) =
      .gives ⟨node, index, found.toList⟩ (Pending.noted stack parent [index], index + 1) := by
  cases parent with
  | none => simp [postorderTurn, Pending.noted]
  | some place => simp [postorderTurn, Pending.noted, inside place rfl]

theorem yields_postorderFrom {stack : Array (Pending σ)} (linked : Linked stack) (index : Nat) :
    Yields postorderTurn (stack, index) (postorderFrom stack index) := by
  -- along the run: the stack is empty, its top opens, or its top is given
  induction stack, index using postorderFrom.induct with
  | case1 stack index empty =>
    obtain rfl := Array.back?_eq_none_iff.mp empty
    rw [postorderFrom]
    exact .ended rfl
  | case2 stack index top last rest unopened opened ih =>
    obtain ⟨lower, rfl⟩ := Array.back?_eq_some_iff.mp last
    obtain ⟨node, positions, parent⟩ := top
    obtain rfl : positions = none := unopened
    obtain ⟨below, inside⟩ := linked.of_push
    simp only [rest, opened, Array.pop_push] at ih
    have reopened : Linked (lower.push ⟨node, some #[], parent⟩) := below.push inside
    have run := ih (reopened.stacked (by simp) (children node))
    rw [postorderFrom_open]
    exact .works (postorderTurn_open lower node parent index) run
  | case3 stack index top last rest positions opened noted ih =>
    obtain ⟨lower, rfl⟩ := Array.back?_eq_some_iff.mp last
    obtain ⟨node, found, parent⟩ := top
    obtain rfl : found = some positions := opened
    obtain ⟨below, inside⟩ := linked.of_push
    have same : noted = Pending.noted lower parent [index] := by
      cases parent <;> simp [noted, rest, Pending.noted]
    rw [same] at ih
    rw [postorderFrom_visit]
    exact .gives (postorderTurn_visit inside node positions index) (ih (below.noted parent index))

/-- The tasks that a stack stands for. -/
def Paused.tasks : List (Paused σ) → List (VisitTask σ)
  | [] => []
  | ⟨node, none⟩ :: rest => .enter node (rest.head?.map (·.node)) :: tasks rest
  | ⟨node, some (position, done)⟩ :: rest =>
    let parent := rest.head?.map (·.node)
    let arity := (children node).length
    .again ⟨node, position, done, done == arity, parent⟩ ::
      (VisitTask.rounds node parent position arity ((children node).drop done) done ++ tasks rest)

/-- What is left to do for a node: its next child and the visit after it, and so on. -/
theorem Paused.tasks_after (node : σ) (position done : Nat) (rest : List (Paused σ)) :
    tasks (after node position done rest) =
      VisitTask.rounds node (rest.head?.map (·.node)) position (children node).length
        ((children node).drop done) done ++ tasks rest := by
  rw [after]
  cases next : (children node)[done]? with
  | none =>
    rw [List.drop_eq_nil_of_le (List.getElem?_eq_none_iff.mp next)]
    rfl
  | some child =>
    obtain ⟨inside, rfl⟩ := List.getElem?_eq_some_iff.mp next
    rw [List.drop_eq_getElem_cons inside]
    rfl

/-- A visit is the first task of the stack. -/
theorem visitTurn_cons (top : Paused σ) (rest : List (Paused σ)) (index : Nat) :
    ∃ visit stack later, visitTurn (top :: rest, index) = .gives visit (stack, later) ∧
      visitsFrom (Paused.tasks (top :: rest)) index =
        visit :: visitsFrom (Paused.tasks stack) later := by
  obtain ⟨node, progress⟩ := top
  refine ⟨_, _, _, rfl, ?_⟩
  rw [Paused.tasks_after]
  cases progress with
  | none =>
    rw [Paused.tasks, visitsFrom, isEmpty_eq_beq_length]
    rfl
  | some progress =>
    rw [Paused.tasks, visitsFrom]
    rfl

theorem yields_visitsFrom (stack : List (Paused σ)) (index : Nat) :
    Yields visitTurn (stack, index) (visitsFrom (Paused.tasks stack) index) := by
  cases stack with
  | nil =>
    rw [Paused.tasks, visitsFrom]
    exact .ended rfl
  | cons top rest =>
    obtain ⟨visit, stack, later, given, listed⟩ := visitTurn_cons top rest index
    rw [listed]
    exact .gives given (yields_visitsFrom stack later)
termination_by (visitsFrom (Paused.tasks stack) index).length
decreasing_by
  rw [listed]
  exact Nat.lt_succ_self _

/-- The iterators keep a stack of their own and give what the recursion lists.

Each of them ends, and what it gave until then are the nodes at the addresses in the order of the
recursion: in the post-order with their positions and those of their children, in the walk with their
positions in the pre-order, the children done, whether it is the last visit, and the parent. Every
address of the tree is met once by both orders, and by the walk once before the children of its node
and once after each of them. -/
theorem iterators_recursive (tree : σ) :
    (Yields preorderTurn [tree] (preorder tree) ∧
      (preorder tree).map some = (preorderAddresses tree).map (nodeAt? tree)) ∧
    (Yields postorderTurn (#[⟨tree, none, none⟩], 0) (postorder tree) ∧
      (postorder tree).map some = (postorderAddresses tree).map (itemAt? tree) ∧
      (postorder tree).map (·.index) = List.range (postorder tree).length) ∧
    (Yields visitTurn ([⟨tree, none⟩], 0) (visits tree) ∧
      (visits tree).map some = (visitAddresses tree).map (visitAt? tree)) ∧
    (∀ address, address ∈ preorderAddresses tree ↔ (nodeAt? tree address).isSome) ∧
    (preorderAddresses tree).Nodup ∧ (postorderAddresses tree).Perm (preorderAddresses tree) ∧
    ∀ address, (visitAddresses tree).filter (·.1 = address) =
      ((nodeAt? tree address).map fun node =>
        (List.range ((children node).length + 1)).map (address, ·)).getD [] := by
  have alone : Linked (#[].push (⟨tree, none, none⟩ : Pending σ)) := Linked.empty.push nofun
  refine ⟨⟨?_, preorder_eq_map tree⟩, ⟨?_, postorder_eq_map tree, map_index_postorder tree⟩,
    ⟨?_, visits_eq_map tree⟩, mem_preorderAddresses_iff tree, nodup_preorderAddresses tree,
    postorderAddresses_perm tree, filter_visitAddresses tree⟩
  · exact yields_preorderFrom [tree]
  · exact yields_postorderFrom alone 0
  · exact yields_visitsFrom [⟨tree, none⟩] 0

end Traversal

end LockScript
