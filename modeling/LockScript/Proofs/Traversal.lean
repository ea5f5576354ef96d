import Mathlib.Algebra.Order.Ring.Nat
import Mathlib.Data.List.Basic
import LockScript.Satisfaction.Search

/-! # Traversals as recursions

The traversals keep their own stack, so that no tree is too high for them. What they compute is
nevertheless a plain recursion on the tree: a pre-order lists a node and then the pre-orders of its
children, and a bottom-up pass takes one step on the results of the children. Proofs use these two
equations and never look at the stack. A walk goes on with the next child where that of the child
before it ends.
-/

namespace LockScript

namespace Traversal

open Branching (children weight)

variable {σ : Type} [Branching σ]

theorem preorderFrom_append (first second : List σ) :
    preorderFrom (first ++ second) = preorderFrom first ++ preorderFrom second := by
  induction first using preorderFrom.induct with
  | case1 => simp [preorderFrom]
  | case2 tree rest ih =>
    rw [List.cons_append, preorderFrom, preorderFrom, ← List.append_assoc, ih, List.cons_append]

theorem preorderFrom_eq_flatMap (trees : List σ) : preorderFrom trees = trees.flatMap preorder := by
  induction trees with
  | nil => rw [preorderFrom, List.flatMap_nil]
  | cons tree rest ih =>
    rw [List.flatMap_cons, ← ih, preorder, ← preorderFrom_append, List.singleton_append]

/-- A pre-order is the root followed by the pre-orders of its children. -/
theorem preorder_eq (tree : σ) : preorder tree = tree :: (children tree).flatMap preorder := by
  rw [preorder, preorderFrom, List.append_nil, preorderFrom_eq_flatMap]

/-- Every tree of the pre-order is the root or below one of its children. -/
theorem mem_preorder_iff (tree node : σ) :
    node ∈ preorder tree ↔ node = tree ∨ ∃ child ∈ children tree, node ∈ preorder child := by
  rw [preorder_eq, List.mem_cons, List.mem_flatMap]

theorem mem_preorder_self (tree : σ) : tree ∈ preorder tree :=
  (mem_preorder_iff tree tree).mpr (.inl rfl)

/-! ## Post-order -/

/-- The nodes of listed trees, each tree behind the nodes below it. -/
def nodesOf : List σ → List σ
  | [] => []
  | tree :: rest => nodesOf (children tree) ++ tree :: nodesOf rest
termination_by trees => totalWeight trees
decreasing_by
  · exact totalWeight_children_lt tree rest
  · exact totalWeight_lt_cons tree rest

/-- The positions of listed trees among their nodes, which start at `index`. -/
def positionsOf : List σ → Nat → List Nat
  | [], _ => []
  | tree :: rest, index =>
    let position := index + (nodesOf (children tree)).length
    position :: positionsOf rest (position + 1)

/-- The nodes of listed trees with their positions and those of their children. -/
def itemsOf : List σ → Nat → List (PostorderItem σ)
  | [], _ => []
  | tree :: rest, index =>
    let position := index + (nodesOf (children tree)).length
    itemsOf (children tree) index ++
      ⟨tree, position, positionsOf (children tree) index⟩ :: itemsOf rest (position + 1)
termination_by trees => totalWeight trees
decreasing_by
  · exact totalWeight_children_lt tree rest
  · exact totalWeight_lt_cons tree rest

theorem nodesOf_eq_flatMap (trees : List σ) :
    nodesOf trees = trees.flatMap fun tree => nodesOf (children tree) ++ [tree] := by
  induction trees with
  | nil => rw [nodesOf, List.flatMap_nil]
  | cons tree rest ih => rw [nodesOf, ih, List.flatMap_cons, List.append_assoc, List.singleton_append]

theorem mem_nodesOf_iff (trees : List σ) (node : σ) :
    node ∈ nodesOf trees ↔ ∃ tree ∈ trees, node ∈ preorder tree := by
  induction trees using nodesOf.induct with
  | case1 => simp [nodesOf]
  | case2 tree rest below ih =>
    rw [nodesOf, List.mem_append, List.mem_cons, below, ih, List.exists_mem_cons_iff,
      mem_preorder_iff tree, or_left_comm, or_assoc]

theorem map_node_itemsOf (trees : List σ) (index : Nat) :
    (itemsOf trees index).map (·.node) = nodesOf trees := by
  induction trees, index using itemsOf.induct with
  | case1 => simp [itemsOf, nodesOf]
  | case2 tree rest index position below ih =>
    rw [itemsOf, nodesOf, List.map_append, List.map_cons, below, ih]

/-- An item whose positions start later. -/
def PostorderItem.shift (offset : Nat) (item : PostorderItem σ) : PostorderItem σ :=
  ⟨item.node, item.index + offset, item.childIndices.map (· + offset)⟩

theorem map_add_positionsOf (trees : List σ) (index offset : Nat) :
    (positionsOf trees index).map (· + offset) = positionsOf trees (index + offset) := by
  induction trees generalizing index with
  | nil => rfl
  | cons tree rest ih =>
    simp only [positionsOf, List.map_cons, ih]
    rw [Nat.add_right_comm index offset, Nat.add_right_comm _ 1 offset]

theorem map_shift_itemsOf (trees : List σ) (index offset : Nat) :
    (itemsOf trees index).map (.shift offset) = itemsOf trees (index + offset) := by
  induction trees, index using itemsOf.induct with
  | case1 => simp [itemsOf]
  | case2 tree rest index position below ih =>
    rw [itemsOf, itemsOf, List.map_append, List.map_cons, below, ih, PostorderItem.shift,
      map_add_positionsOf, Nat.add_right_comm index offset, Nat.add_right_comm _ 1 offset]

namespace Pending

/-- The stack once the node at `parent` has noted the positions of more children. -/
def noted (stack : Array (Pending σ)) (parent : Option Nat) (positions : List Nat) :
    Array (Pending σ) :=
  match parent with
  | none => stack
  | some place => positions.foldl (fun stack index => stack.modify place (·.record index)) stack

omit [Branching σ] in
theorem modify_push (stack : Array (Pending σ)) (pending : Pending σ) (f : Pending σ → Pending σ) :
    (stack.push pending).modify stack.size f = stack.push (f pending) := by
  have last (items : List (Pending σ)) :
      (items ++ [pending]).modify items.length f = items ++ [f pending] := by
    induction items with
    | nil => rfl
    | cons x rest ih => simp [ih]
  apply Array.toList_inj.mp
  simpa using last stack.toList

omit [Branching σ] in
theorem modify_append (stack : Array (Pending σ)) (above : List (Pending σ)) {place : Nat}
    (inside : place < stack.size) (f : Pending σ → Pending σ) :
    (stack ++ above).modify place f = stack.modify place f ++ above := by
  have before (items : List (Pending σ)) (place : Nat) (inside : place < items.length) :
      (items ++ above).modify place f = items.modify place f ++ above := by
    induction items generalizing place with
    | nil => exact absurd inside (Nat.not_lt_zero _)
    | cons x rest ih =>
      cases place with
      | zero => rfl
      | succ place => simp [ih place (by simpa using inside)]
  apply Array.toList_inj.mp
  simpa using before stack.toList place (by simpa using inside)

omit [Branching σ] in
theorem noted_push (stack : Array (Pending σ)) (node : σ) (found : Array Nat) (parent : Option Nat)
    (positions : List Nat) :
    noted (stack.push ⟨node, some found, parent⟩) (some stack.size) positions =
      stack.push ⟨node, some (found ++ positions), parent⟩ := by
  simp only [noted]
  induction positions generalizing found with
  | nil => simp
  | cons index rest ih =>
    rw [List.foldl_cons, modify_push, record, Option.map_some, ih]
    simp

omit [Branching σ] in
theorem size_noted (stack : Array (Pending σ)) (parent : Option Nat) (positions : List Nat) :
    (noted stack parent positions).size = stack.size := by
  cases parent with
  | none => rfl
  | some place =>
    simp only [noted]
    induction positions generalizing stack with
    | nil => rfl
    | cons index rest ih => rw [List.foldl_cons, ih, Array.size_modify]

omit [Branching σ] in
theorem noted_cons (stack : Array (Pending σ)) (parent : Option Nat) (index : Nat)
    (positions : List Nat) :
    noted stack parent (index :: positions) =
      noted (noted stack parent [index]) parent positions := by
  cases parent <;> rfl

omit [Branching σ] in
theorem noted_append (stack : Array (Pending σ)) (above : List (Pending σ)) {parent : Option Nat}
    (inside : ∀ place ∈ parent, place < stack.size) (index : Nat) :
    noted (stack ++ above) parent [index] = noted stack parent [index] ++ above := by
  cases parent with
  | none => rfl
  | some place => exact modify_append stack above (inside place rfl) _

end Pending

/-- A node that was not looked at opens: its children wait above it. -/
theorem postorderFrom_open (stack : Array (Pending σ)) (node : σ) (parent : Option Nat)
    (index : Nat) :
    postorderFrom (stack.push ⟨node, none, parent⟩) index =
      postorderFrom (stack.push ⟨node, some #[], parent⟩ ++
        Pending.stacked (some stack.size) (children node)) index := by
  rw [postorderFrom]
  split
  next empty => simp at empty
  next top back =>
    obtain rfl : ⟨node, none, parent⟩ = top := by simpa using back
    simp

/-- A node whose children were visited is visited itself, and its parent notes the position. -/
theorem postorderFrom_visit (stack : Array (Pending σ)) (node : σ) (found : Array Nat)
    (parent : Option Nat) (index : Nat) :
    postorderFrom (stack.push ⟨node, some found, parent⟩) index =
      ⟨node, index, found.toList⟩ ::
        postorderFrom (Pending.noted stack parent [index]) (index + 1) := by
  rw [postorderFrom]
  split
  next empty => simp at empty
  next top back =>
    obtain rfl : ⟨node, some found, parent⟩ = top := by simpa using back
    simp only [Array.pop_push]
    rfl

/-- Trees on top of the stack are listed by recursion; then the node at `parent` knows their
positions, and the rest of the stack is as it was. -/
theorem postorderFrom_stacked (trees : List σ) (stack : Array (Pending σ)) (parent : Option Nat)
    (index : Nat) (inside : ∀ place ∈ parent, place < stack.size) :
    postorderFrom (stack ++ Pending.stacked parent trees) index =
      itemsOf trees index ++
        postorderFrom (Pending.noted stack parent (positionsOf trees index))
          (index + (nodesOf trees).length) := by
  induction trees using nodesOf.induct generalizing stack parent index with
  | case1 => cases parent <;> simp [Pending.stacked, itemsOf, positionsOf, nodesOf, Pending.noted]
  | case2 tree rest below ih =>
    let position := index + (nodesOf (children tree)).length
    have top : stack ++ Pending.stacked parent (tree :: rest) =
        (stack ++ Pending.stacked parent rest).push ⟨tree, none, parent⟩ := by
      apply Array.toList_inj.mp
      simp [Pending.stacked]
    have opened := below ((stack ++ Pending.stacked parent rest).push ⟨tree, some #[], parent⟩)
      (some (stack ++ Pending.stacked parent rest).size) index (by simp)
    rw [Pending.noted_push] at opened
    have later := ih (Pending.noted stack parent [position]) parent (position + 1)
      fun place member => by rw [Pending.size_noted]; exact inside place member
    rw [top, postorderFrom_open, opened, postorderFrom_visit, Pending.noted_append stack _ inside,
      later, itemsOf, positionsOf, nodesOf, Pending.noted_cons stack parent
        (index + _) (positionsOf rest _)]
    simp [position, Nat.add_assoc, Nat.add_comm 1]

/-- A post-order with its positions is that of the recursion. -/
theorem postorder_eq (tree : σ) : postorder tree = itemsOf [tree] 0 := by
  have run := postorderFrom_stacked [tree] #[] none 0 nofun
  have empty : postorderFrom (#[] : Array (Pending σ)) (0 + (nodesOf [tree]).length) = [] := by
    rw [postorderFrom]
    rfl
  rw [Pending.noted, empty, List.append_nil] at run
  exact run

/-! ## Walks -/

/-- The number of nodes that a task visits for the first time. -/
def VisitTask.entered : VisitTask σ → Nat
  | enter tree _ => (preorder tree).length
  | again _ => 0

theorem sum_entered_rounds (node : σ) (parent : Option σ) (index arity : Nat) (trees : List σ)
    (before : Nat) :
    sumOf VisitTask.entered (VisitTask.rounds node parent index arity trees before) =
      (trees.flatMap preorder).length := by
  induction trees generalizing before with
  | nil => rfl
  | cons tree rest ih =>
    rw [List.flatMap_cons, List.length_append, ← ih (before + 1)]
    simp [VisitTask.rounds, sumOf, VisitTask.entered]

/-- Later tasks go on where the earlier ones end. -/
theorem visitsFrom_append (tasks rest : List (VisitTask σ)) (index : Nat) :
    visitsFrom (tasks ++ rest) index =
      visitsFrom tasks index ++ visitsFrom rest (index + sumOf VisitTask.entered tasks) := by
  induction tasks, index using visitsFrom.induct with
  | case1 index => simp [visitsFrom, sumOf]
  | case2 index tree parent tasks below ih =>
    have nodes : index + 1 + sumOf VisitTask.entered
        (VisitTask.rounds tree parent index (children tree).length (children tree) 0 ++ tasks) =
          index + sumOf VisitTask.entered (.enter tree parent :: tasks) := by
      rw [sumOf_append, sum_entered_rounds, sumOf, VisitTask.entered, preorder_eq, List.length_cons]
      omega
    rw [List.cons_append, visitsFrom, visitsFrom, ← List.append_assoc, ih, nodes, List.cons_append]
  | case3 index visit tasks ih =>
    rw [List.cons_append, visitsFrom, visitsFrom, ih, List.cons_append, sumOf, VisitTask.entered,
      Nat.zero_add]

/-- The walk of a tree: its root, then each child and the root again. -/
theorem visitsFrom_enter (tree : σ) (parent : Option σ) (index : Nat) :
    visitsFrom [.enter tree parent] index =
      ⟨tree, index, 0, (children tree).isEmpty, parent⟩ ::
        visitsFrom (VisitTask.rounds tree parent index (children tree).length (children tree) 0)
          (index + 1) := by
  rw [visitsFrom, List.append_nil]

/-! ## Bottom-up passes -/

variable {ε α β : Type}

theorem length_of_mapM_eq_ok {f : α → Except ε β} {items : List α} {results : List β}
    (success : items.mapM f = .ok results) : results.length = items.length := by
  induction items generalizing results with
  | nil =>
    cases success
    rfl
  | cons x rest ih =>
    rw [List.mapM_cons] at success
    cases head : f x with
    | error error => simp [head, bind, Except.bind] at success
    | ok y =>
      cases tail : rest.mapM f with
      | error error => simp [head, tail, bind, Except.bind] at success
      | ok ys =>
        simp only [head, tail, bind, Except.bind, pure, Except.pure, Except.ok.injEq] at success
        rw [← success, List.length_cons, ih tail, List.length_cons]

variable [Inhabited β]

/-- The results of listed trees, or the first error, by recursion. -/
def resultsOf (step : σ → List β → Except ε β) : List σ → Except ε (List β)
  | [] => .ok []
  | tree :: rest => do
    let result ← step tree (← resultsOf step (children tree))
    return result :: (← resultsOf step rest)
termination_by trees => totalWeight trees
decreasing_by
  · exact totalWeight_children_lt tree rest
  · exact totalWeight_lt_cons tree rest

omit [Inhabited β] in
theorem resultsOf_eq_mapM (step : σ → List β → Except ε β) (trees : List σ) :
    resultsOf step trees = trees.mapM fun tree => resultsOf step (children tree) >>= step tree := by
  induction trees with
  | nil => rw [resultsOf]; rfl
  | cons tree rest ih => rw [resultsOf, List.mapM_cons, ih, bind_assoc]

omit [Inhabited β] in
theorem resultsOf_singleton (step : σ → List β → Except ε β) (tree : σ) :
    resultsOf step [tree] = (resultsOf step (children tree) >>= step tree).map ([·]) := by
  rw [resultsOf_eq_mapM, List.mapM_cons]
  cases resultsOf step (children tree) >>= step tree <;> rfl

/-- Later results stand behind the earlier ones. -/
structure Extends (earlier later : Array β) : Prop where
  size_le : earlier.size ≤ later.size
  kept : ∀ index < earlier.size, later.getD index default = earlier.getD index default

theorem Extends.refl (results : Array β) : Extends results results :=
  ⟨Nat.le_refl _, fun _ _ => rfl⟩

theorem Extends.trans {first second third : Array β} (one : Extends first second)
    (two : Extends second third) : Extends first third where
  size_le := Nat.le_trans one.size_le two.size_le
  kept index within := by
    rw [two.kept index (Nat.lt_of_lt_of_le within one.size_le), one.kept index within]

theorem Extends.push (results : Array β) (result : β) :
    Extends results (results.push result) where
  size_le := by simp
  kept index within := by
    simp [Array.getD_eq_getD_getElem?, Array.getElem?_push, Nat.ne_of_lt within]

/-- A pass stops with the first error, or puts a result for every node behind the earlier ones, where
those of the listed trees stand at their positions. -/
def Passed (trees : List σ) (results : Array β) :
    Except ε (List β) → Except ε (Array β) → Prop
  | .error error, outcome => outcome = .error error
  | .ok found, outcome => ∃ later : Array β, outcome = .ok later ∧ Extends results later ∧
      later.size = results.size + (nodesOf trees).length ∧
      (positionsOf trees results.size).map (later.getD · default) = found

theorem Passed.nil (step : σ → List β → Except ε β) (results : Array β) :
    Passed ([] : List σ) results (resultsOf step []) (.ok results) := by
  rw [resultsOf]
  exact ⟨results, rfl, .refl results, by simp [nodesOf], rfl⟩

theorem Passed.size_eq {trees : List σ} {results later : Array β} {values : Except ε (List β)}
    {outcome : Except ε (Array β)} (passed : Passed trees results values outcome)
    (ran : outcome = .ok later) : later.size = results.size + (nodesOf trees).length := by
  subst ran
  cases values with
  | error error => cases passed
  | ok found =>
    obtain ⟨_, same, _, size, _⟩ := passed
    cases same
    exact size

theorem length_nodesOf_singleton (tree : σ) :
    (nodesOf [tree]).length = (nodesOf (children tree)).length + 1 := by
  rw [nodesOf_eq_flatMap, List.flatMap_singleton, List.length_append, List.length_singleton]

/-- A node is visited after the pass over the trees below it. -/
theorem Passed.visit {step : σ → List β → Except ε β} {tree : σ} {results : Array β}
    {outcome : Except ε (Array β)}
    (below : Passed (children tree) results (resultsOf step (children tree)) outcome) :
    Passed [tree] results (resultsOf step [tree]) (outcome >>= fun later =>
      Traversal.visit step later tree (positionsOf (children tree) results.size)) := by
  rw [resultsOf_singleton]
  cases values : resultsOf step (children tree) with
  | error error =>
    rw [values] at below
    exact congrArg (· >>= _) below
  | ok found =>
    rw [values] at below
    obtain ⟨later, rfl, extended, size, located⟩ := below
    simp only [bind, Except.bind, Traversal.visit, located]
    cases answer : step tree found with
    | error error => rfl
    | ok result =>
      refine ⟨later.push result, rfl, extended.trans (.push later result), ?_, ?_⟩
      · rw [Array.size_push, size, length_nodesOf_singleton, Nat.add_assoc]
      · rw [positionsOf, positionsOf, List.map_singleton, ← size, Array.getD_eq_getD_getElem?,
          Array.getElem?_push_size, Option.getD_some]

/-- Passes over trees follow one another. -/
theorem Passed.cons {step : σ → List β → Except ε β} {tree : σ} {rest : List σ}
    {results : Array β} {outcome : Except ε (Array β)} {next : Array β → Except ε (Array β)}
    (first : Passed [tree] results (resultsOf step [tree]) outcome)
    (others : ∀ later, later.size = results.size + (nodesOf [tree]).length →
      Passed rest later (resultsOf step rest) (next later)) :
    Passed (tree :: rest) results (resultsOf step (tree :: rest)) (outcome >>= next) := by
  rw [resultsOf_singleton] at first
  rw [resultsOf_eq_mapM, List.mapM_cons, ← resultsOf_eq_mapM]
  cases answer : resultsOf step (children tree) >>= step tree with
  | error error =>
    rw [answer] at first
    exact congrArg (· >>= _) first
  | ok result =>
    rw [answer] at first
    obtain ⟨middle, rfl, extended, size, located⟩ := first
    have second := others middle size
    cases answers : resultsOf step rest with
    | error error =>
      rw [answers] at second
      exact second
    | ok values =>
      rw [answers] at second
      obtain ⟨later, ran, extended', size', located'⟩ := second
      have place : middle.size = results.size + (nodesOf (children tree)).length + 1 := by
        rw [size, length_nodesOf_singleton, Nat.add_assoc]
      refine ⟨later, ran, extended.trans extended', ?_, ?_⟩
      · rw [size', place, nodesOf, List.length_append, List.length_cons]
        omega
      · have kept := extended'.kept (results.size + (nodesOf (children tree)).length) (by omega)
        rw [place] at located'
        rw [positionsOf, List.map_cons, located', kept]
        exact congrArg (· :: values) (List.cons.inj located).1

/-- A pass over the nodes of listed trees computes what the recursion does. -/
theorem passed_itemsOf (step : σ → List β → Except ε β) (trees : List σ) (results : Array β) :
    Passed trees results (resultsOf step trees)
      ((itemsOf trees results.size).foldlM (fun later item =>
        visit step later item.node item.childIndices) results) := by
  induction trees using nodesOf.induct generalizing results with
  | case1 =>
    rw [itemsOf]
    exact .nil step results
  | case2 tree rest below ih =>
    have all := (below results).visit.cons fun later size => by
      have others := ih later
      rw [size, length_nodesOf_singleton, ← Nat.add_assoc] at others
      exact others
    rw [bind_assoc] at all
    rw [itemsOf, List.foldlM_append]
    exact all

/-- The pass over one tree, whose positions may start behind earlier results. -/
theorem passed_postorder (step : σ → List β → Except ε β) (tree : σ) (results : Array β) :
    Passed [tree] results (resultsOf step [tree])
      ((postorder tree).foldlM (fun later item =>
        visit step later item.node (item.childIndices.map (· + results.size))) results) := by
  have pass := passed_itemsOf step [tree] results
  rw [← Nat.zero_add results.size, ← map_shift_itemsOf, ← postorder_eq, List.foldlM_map] at pass
  exact pass

/-- A bottom-up pass is a recursion on the tree. -/
theorem bottomUpM_eq_resultsOf (step : σ → List β → Except ε β) (tree : σ) :
    bottomUpM step tree = resultsOf step (children tree) >>= step tree := by
  have pass := passed_itemsOf step [tree] #[]
  rw [resultsOf_singleton] at pass
  rw [bottomUpM, postorder_eq]
  cases answer : resultsOf step (children tree) >>= step tree with
  | error error =>
    rw [answer] at pass
    exact congrArg (· >>= _) pass
  | ok result =>
    rw [answer] at pass
    obtain ⟨later, ran, _, size, located⟩ := pass
    have last : later.size - 1 = 0 + (nodesOf (children tree)).length := by
      simp [size, length_nodesOf_singleton]
    have root : later.back?.getD default = result := by
      rw [Array.back?, last, ← Array.getD_eq_getD_getElem?]
      exact (List.cons.inj located).1
    rw [← root]
    exact congrArg (· >>= _) ran

/-- A bottom-up pass takes its step on the results of the children, left to right. -/
theorem bottomUpM_eq (step : σ → List β → Except ε β) (tree : σ) :
    bottomUpM step tree = (children tree).mapM (bottomUpM step) >>= step tree := by
  rw [bottomUpM_eq_resultsOf, resultsOf_eq_mapM, funext (bottomUpM_eq_resultsOf step)]

/-- A bottom-up pass whose step cannot fail is a recursion on the tree. -/
theorem bottomUp_eq (step : σ → List β → β) (tree : σ) :
    bottomUp step tree = step tree ((children tree).map (bottomUp step)) := by
  have pass (node : σ) : bottomUpM (m := Except Empty) (fun x items => pure (step x items)) node =
      .ok (bottomUp step node) := by
    simp only [bottomUp, bottomUpM, visit, bind_pure_comp, map_pure, List.foldlM_pure]
    rfl
  have unfolded := bottomUpM_eq (fun x items => (pure (step x items) : Except Empty β)) tree
  rw [funext pass] at unfolded
  have results : (children tree).mapM (m := Except Empty) (fun x => .ok (bottomUp step x)) =
      .ok ((children tree).map (bottomUp step)) := List.mapM_pure
  rw [results] at unfolded
  exact Except.ok.inj unfolded

end Traversal

namespace Condition

variable {κ δ α β : Type}

/-- Induction over conditions; the children of a threshold all satisfy the motive. -/
@[elab_as_elim]
theorem induct {motive : Condition κ δ α → Prop}
    (leaf : ∀ note l, motive (.leaf note l))
    (wrap : ∀ note w x, motive x → motive (.wrap note w x))
    (pair : ∀ note op x y, motive x → motive y → motive (.pair note op x y))
    (andOr : ∀ note x y z, motive x → motive y → motive z → motive (.andOr note x y z))
    (thresh : ∀ note k items, (∀ x ∈ items, motive x) → motive (.thresh note k items)) :
    ∀ t, motive t
  | .leaf note l => leaf note l
  | .wrap note w x => wrap note w x (induct leaf wrap pair andOr thresh x)
  | .pair note op x y =>
    pair note op x y (induct leaf wrap pair andOr thresh x) (induct leaf wrap pair andOr thresh y)
  | .andOr note x y z =>
    andOr note x y z (induct leaf wrap pair andOr thresh x) (induct leaf wrap pair andOr thresh y)
      (induct leaf wrap pair andOr thresh z)
  | .thresh note k items =>
    thresh note k items fun x _ => induct leaf wrap pair andOr thresh x

@[simp] theorem children_leaf (note : α) (l : Leaf κ δ) : (leaf note l).children = [] := rfl

@[simp] theorem children_wrap (note : α) (w : Wrapper) (x : Condition κ δ α) :
    (wrap note w x).children = [x] := rfl

@[simp] theorem children_pair (note : α) (op : Connective) (x y : Condition κ δ α) :
    (pair note op x y).children = [x, y] := rfl

@[simp] theorem children_andOr (note : α) (x y z : Condition κ δ α) :
    (andOr note x y z).children = [x, y, z] := rfl

@[simp] theorem children_thresh (note : α) (k : Nat) (items : List (Condition κ δ α)) :
    (thresh note k items).children = items := rfl

/-- Induction over conditions whatever their fragment. -/
@[elab_as_elim]
theorem induct_children {motive : Condition κ δ α → Prop}
    (node : ∀ t, (∀ x ∈ t.children, motive x) → motive t) (t : Condition κ δ α) : motive t := by
  induction t using induct with
  | leaf note l => exact node _ (by simp)
  | wrap note w x ih => exact node _ (by simpa using ih)
  | pair note op x y ihX ihY => exact node _ (by simpa using ⟨ihX, ihY⟩)
  | andOr note x y z ihX ihY ihZ => exact node _ (by simpa using ⟨ihX, ihY, ihZ⟩)
  | thresh note k items ih => exact node _ ih

/-- A bottom-up pass over a condition is a step on its fragment with the results in place. -/
theorem bottomUp_fragment [Inhabited β] (step : Fragment κ δ β → β) (t : Condition κ δ α) :
    Traversal.bottomUp (fun x items => step (x.fragment.withChildren items)) t =
      step (t.fragment.map
        (Traversal.bottomUp fun x items => step (x.fragment.withChildren items))) := by
  rw [Traversal.bottomUp_eq]
  exact congrArg step (Fragment.withChildren_map _ t.fragment)

theorem mem_preorder_iff (t node : Condition κ δ α) :
    node ∈ Traversal.preorder t ↔ node = t ∨ ∃ child ∈ t.children, node ∈ Traversal.preorder child :=
  Traversal.mem_preorder_iff t node

/-- The keys of a condition are those of its own fragment and then those of its children. -/
theorem keys_eq (t : Condition κ δ α) :
    t.keys = (match t.fragment with | .leaf l => l.keys | _ => []) ++ t.children.flatMap keys := by
  rw [keys, Traversal.preorder_eq, List.flatMap_cons, List.flatMap_assoc]
  rfl

@[simp] theorem keys_leaf (note : α) (l : Leaf κ δ) : (leaf note l).keys = l.keys := by
  simp [keys_eq, fragment]

@[simp] theorem keys_wrap (note : α) (w : Wrapper) (x : Condition κ δ α) :
    (wrap note w x).keys = x.keys := by
  simp [keys_eq (wrap note w x), fragment]

@[simp] theorem keys_pair (note : α) (op : Connective) (x y : Condition κ δ α) :
    (pair note op x y).keys = x.keys ++ y.keys := by
  simp [keys_eq (pair note op x y), fragment]

@[simp] theorem keys_andOr (note : α) (x y z : Condition κ δ α) :
    (andOr note x y z).keys = x.keys ++ y.keys ++ z.keys := by
  simp [keys_eq (andOr note x y z), fragment]

@[simp] theorem keys_thresh (note : α) (k : Nat) (items : List (Condition κ δ α)) :
    (thresh note k items).keys = items.flatMap keys := by
  simp [keys_eq (thresh note k items), fragment]

end Condition

namespace Condition

variable {κ δ α : Type}

/-- A property of all fragments of a condition. -/
def All (P : Fragment κ δ (Condition κ δ α) → Prop) (t : Condition κ δ α) : Prop :=
  ∀ x ∈ Traversal.preorder t, P x.fragment

variable {P : Fragment κ δ (Condition κ δ α) → Prop}

theorem all_iff (t : Condition κ δ α) : t.All P ↔ P t.fragment ∧ ∀ x ∈ t.children, x.All P := by
  constructor
  · intro all
    exact ⟨all t (Traversal.mem_preorder_self t), fun x member y below =>
      all y ((mem_preorder_iff t y).mpr (.inr ⟨x, member, below⟩))⟩
  · rintro ⟨root, children⟩ y below
    obtain rfl | ⟨x, member, below⟩ := (mem_preorder_iff t y).mp below
    · exact root
    · exact children x member y below

@[simp] theorem all_leaf (note : α) (l : Leaf κ δ) : (leaf note l).All P ↔ P (.leaf l) := by
  rw [all_iff]
  simp [fragment]

@[simp] theorem all_wrap (note : α) (w : Wrapper) (x : Condition κ δ α) :
    (wrap note w x).All P ↔ P (.wrap w x) ∧ x.All P := by
  rw [all_iff]
  simp [fragment]

@[simp] theorem all_pair (note : α) (op : Connective) (x y : Condition κ δ α) :
    (pair note op x y).All P ↔ P (.pair op x y) ∧ x.All P ∧ y.All P := by
  rw [all_iff]
  simp [fragment]

@[simp] theorem all_andOr (note : α) (x y z : Condition κ δ α) :
    (andOr note x y z).All P ↔ P (.andOr x y z) ∧ x.All P ∧ y.All P ∧ z.All P := by
  rw [all_iff]
  simp [fragment]

@[simp] theorem all_thresh (note : α) (k : Nat) (items : List (Condition κ δ α)) :
    (thresh note k items).All P ↔ P (.thresh k items) ∧ ∀ x ∈ items, x.All P := by
  rw [all_iff]
  simp [fragment]

/-- Every threshold asks for fewer than `limit` of its children.

Below `2 ^ 39` the script number of a count has at most five bytes. The opcodes read no longer ones, and
`numberLength` has no case for them. Only a tree that does not fit into memory is excluded by that: the
references to `2 ^ 39` children alone take four terabytes. The other limits are what a list can hold, `2 ^ 63`
items, and what a count in a word is below, `2 ^ 64`. -/
def CountsBelow (limit : Nat) : Condition κ δ α → Prop :=
  All fun | .thresh k _ => k < limit | _ => True

variable {limit : Nat}

@[simp] theorem countsBelow_leaf (note : α) (l : Leaf κ δ) : (leaf note l).CountsBelow limit := by
  simp [CountsBelow]

@[simp] theorem countsBelow_wrap (note : α) (w : Wrapper) (x : Condition κ δ α) :
    (wrap note w x).CountsBelow limit ↔ x.CountsBelow limit := by
  simp [CountsBelow]

@[simp] theorem countsBelow_pair (note : α) (op : Connective) (x y : Condition κ δ α) :
    (pair note op x y).CountsBelow limit ↔ x.CountsBelow limit ∧ y.CountsBelow limit := by
  simp [CountsBelow]

@[simp] theorem countsBelow_andOr (note : α) (x y z : Condition κ δ α) :
    (andOr note x y z).CountsBelow limit ↔
      x.CountsBelow limit ∧ y.CountsBelow limit ∧ z.CountsBelow limit := by
  simp [CountsBelow]

@[simp] theorem countsBelow_thresh (note : α) (k : Nat) (items : List (Condition κ δ α)) :
    (thresh note k items).CountsBelow limit ↔ k < limit ∧ ∀ x ∈ items, x.CountsBelow limit := by
  simp [CountsBelow]

theorem CountsBelow.mono {limit' : Nat} {t : Condition κ δ α} (counts : t.CountsBelow limit)
    (le : limit ≤ limit') : t.CountsBelow limit' := by
  intro x member
  have few := counts x member
  cases root : x.fragment <;> simp only [root] at few ⊢
  exact Nat.lt_of_lt_of_le few le

end Condition

namespace Condition

variable {κ α : Type} [PublicKey κ] (context : Context)

/-- The script of a condition is that of its fragment over the scripts of its children. -/
theorem script_eq (t : Condition κ Digest α) :
    t.script context = Script.ofFragment context (t.fragment.map (script context)) :=
  bottomUp_fragment (Script.ofFragment context) t

@[simp] theorem script_leaf (note : α) (l : Leaf κ Digest) :
    (leaf note l).script context = Script.ofLeaf context l :=
  script_eq context _

@[simp] theorem script_wrap (note : α) (w : Wrapper) (x : Condition κ Digest α) :
    (wrap note w x).script context = Script.wrap w (x.script context) :=
  script_eq context _

@[simp] theorem script_pair (note : α) (op : Connective) (x y : Condition κ Digest α) :
    (pair note op x y).script context = Script.pair op (x.script context) (y.script context) :=
  script_eq context _

@[simp] theorem script_andOr (note : α) (x y z : Condition κ Digest α) :
    (andOr note x y z).script context =
      Script.andOr (x.script context) (y.script context) (z.script context) :=
  script_eq context _

@[simp] theorem script_thresh (note : α) (k : Nat) (items : List (Condition κ Digest α)) :
    (thresh note k items).script context = Script.threshold k (items.map (script context)) :=
  script_eq context _

end Condition

namespace Search

variable {κ α : Type} [PublicKey κ] (search : Search κ)

/-- The outcomes of a condition are those of its fragment over the outcomes of its children. -/
theorem outcomes_eq (t : Condition κ Digest α) :
    search.outcomes t = search.ofFragment (t.fragment.map search.outcomes) :=
  Condition.bottomUp_fragment search.ofFragment t

@[simp] theorem outcomes_leaf (note : α) (l : Leaf κ Digest) :
    search.outcomes (.leaf note l) = search.ofLeaf l :=
  search.outcomes_eq _

@[simp] theorem outcomes_wrap (note : α) (w : Wrapper) (x : Condition κ Digest α) :
    search.outcomes (.wrap note w x) = .wrap w (search.outcomes x) :=
  search.outcomes_eq _

@[simp] theorem outcomes_pair (note : α) (op : Connective) (x y : Condition κ Digest α) :
    search.outcomes (.pair note op x y) =
      .pair search.policy op (search.outcomes x) (search.outcomes y) :=
  search.outcomes_eq _

@[simp] theorem outcomes_andOr (note : α) (x y z : Condition κ Digest α) :
    search.outcomes (.andOr note x y z) =
      .andOr search.policy (search.outcomes x) (search.outcomes y) (search.outcomes z) :=
  search.outcomes_eq _

@[simp] theorem outcomes_thresh (note : α) (k : Nat) (items : List (Condition κ Digest α)) :
    search.outcomes (.thresh note k items) =
      .thresh search.policy k (items.map search.outcomes) :=
  search.outcomes_eq _

end Search

end LockScript
