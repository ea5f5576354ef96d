import Mathlib.Data.List.Nodup
import Mathlib.Data.List.Perm.Basic
import LockScript.Proofs.Traversal

/-! # Occurrences of nodes

The same node may stand in a tree at several places, so an order of the nodes is an order of places.
A place is known by its address, the numbers of the children on the way down from the root. The three
orders are defined by recursion on the tree, without a stack: a node before those below it, after
them, or before them and again after each child. Each of them meets every place that the tree has.

The traversals list the nodes in these orders. The positions that they give are those of addresses: of
a node, of its children in the post-order, and of a node at all its visits in the pre-order.
-/

namespace LockScript

namespace Branching

variable {σ : Type}

/-- Whatever has no infinite descent is a type of trees. -/
theorem exists_of_wellFounded (children : σ → List σ)
    (finite : WellFounded fun child tree => child ∈ children tree) :
    ∃ trees : Branching σ, trees.children = children := by
  -- the number of nodes, which is computed along the descent
  let body (tree : σ) (count : ∀ child, child ∈ children tree → Nat) : Nat :=
    1 + sumOf (fun child => count child.1 child.2) (children tree).attach
  have count_eq (tree : σ) :
      finite.fix body tree = 1 + sumOf (finite.fix body) (children tree) := by
    conv_rhs => rw [← List.attach_map_subtype_val (children tree), sumOf_map]
    exact finite.fix_eq body tree
  exact ⟨⟨children, finite.fix body, fun tree => by rw [count_eq]; omega⟩, rfl⟩

variable [Branching σ]

theorem weight_lt_of_mem {child tree : σ} (member : child ∈ children tree) :
    weight child < weight tree :=
  Nat.lt_of_le_of_lt (le_sumOf weight member) (weight_children tree)

/-- Induction over trees. -/
@[elab_as_elim]
theorem induct {motive : σ → Prop}
    (node : ∀ tree, (∀ child ∈ children tree, motive child) → motive tree) (tree : σ) :
    motive tree :=
  node tree fun child _ => induct node child
termination_by weight tree
decreasing_by exact weight_lt_of_mem ‹_›

/-- Recursion over trees: what a node gets from what its children get. -/
def recurse {β : Type} (step : List β → β) (tree : σ) : β :=
  step ((children tree).attach.map fun child => recurse step child.1)
termination_by weight tree
decreasing_by exact weight_lt_of_mem child.2

theorem recurse_eq {β : Type} (step : List β → β) (tree : σ) :
    recurse step tree = step ((children tree).map (recurse step)) := by
  rw [recurse, List.attach_map_val]

end Branching

namespace Traversal

open Branching (children)

/-- A place in a tree, by the numbers of the children on the way down from the root. -/
abbrev Address := List Nat

section Orders

variable {σ : Type} [Branching σ]

/-- The node at an address, if the tree has one there. -/
def nodeAt? : σ → Address → Option σ
  | tree, [] => some tree
  | tree, place :: address => (children tree)[place]?.bind (nodeAt? · address)

/-- The addresses in children, which are numbered from `place` on, as their parent has them. -/
def numbered (below : List (List Address)) (place : Nat) : List Address :=
  (below.zipIdx place).flatMap fun child => child.1.map (child.2 :: ·)

/-- The addresses of a tree, a node before those below it. -/
def preorderAddresses : σ → List Address :=
  Branching.recurse fun below => [] :: numbered below 0

/-- The addresses of a tree, a node after those below it. -/
def postorderAddresses : σ → List Address :=
  Branching.recurse fun below => numbered below 0 ++ [[]]

/-- The visits in children, which are numbered from `place` on, each child with the visit of the parent
after it. -/
def numberedVisits (below : List (List (Address × Nat))) (place : Nat) : List (Address × Nat) :=
  (below.zipIdx place).flatMap fun child =>
    child.1.map (fun visit => (child.2 :: visit.1, visit.2)) ++ [([], child.2 + 1)]

/-- The visits of a walk that comes to each node before its children and again after each of them: the
address of the node, and how many of its children were visited before. -/
def visitAddresses : σ → List (Address × Nat) :=
  Branching.recurse fun below => ([], 0) :: numberedVisits below 0

theorem preorderAddresses_eq (tree : σ) :
    preorderAddresses tree = [] :: numbered ((children tree).map preorderAddresses) 0 :=
  Branching.recurse_eq _ tree

theorem postorderAddresses_eq (tree : σ) :
    postorderAddresses tree = numbered ((children tree).map postorderAddresses) 0 ++ [[]] :=
  Branching.recurse_eq _ tree

theorem visitAddresses_eq (tree : σ) :
    visitAddresses tree = ([], 0) :: numberedVisits ((children tree).map visitAddresses) 0 :=
  Branching.recurse_eq _ tree

end Orders

/-! ## Numbered children -/

@[simp] theorem numbered_nil (place : Nat) : numbered [] place = [] := rfl

@[simp] theorem numbered_cons (child : List Address) (rest : List (List Address)) (place : Nat) :
    numbered (child :: rest) place = child.map (place :: ·) ++ numbered rest (place + 1) := rfl

theorem nil_not_mem_numbered (below : List (List Address)) (place : Nat) :
    [] ∉ numbered below place := by
  simp [numbered]

theorem cons_mem_numbered_iff (below : List (List Address)) (place : Nat) (address : Address) :
    place :: address ∈ numbered below 0 ↔ ∃ child, below[place]? = some child ∧ address ∈ child := by
  simp [numbered, List.mem_flatMap, Prod.exists, List.mem_zipIdx_iff_getElem?]

/-- Children have different numbers. -/
theorem nodup_numbered {below : List (List Address)} (distinct : ∀ child ∈ below, child.Nodup)
    (place : Nat) : (numbered below place).Nodup := by
  rw [numbered, List.nodup_flatMap]
  constructor
  · intro child member
    exact (distinct child.1 (List.fst_mem_of_mem_zipIdx member)).map
      fun _ _ => List.tail_eq_of_cons_eq
  · have numbers : ((below.zipIdx place).map Prod.snd).Nodup := by
      rw [List.zipIdx_map_snd]
      exact List.nodup_range'
    refine (List.pairwise_map.mp numbers).imp fun {first second} apart address inFirst inSecond => ?_
    obtain ⟨_, _, rfl⟩ := List.mem_map.mp inFirst
    obtain ⟨_, _, same⟩ := List.mem_map.mp inSecond
    exact apart (List.head_eq_of_cons_eq same).symm

theorem numbered_perm {α : Type} {found found' : α → List Address} {items : List α}
    (same : ∀ x ∈ items, (found x).Perm (found' x)) (place : Nat) :
    (numbered (items.map found) place).Perm (numbered (items.map found') place) := by
  induction items generalizing place with
  | nil => exact .refl _
  | cons x rest ih =>
    obtain ⟨first, others⟩ := List.forall_mem_cons.mp same
    exact (first.map _).append (ih others (place + 1))

@[simp] theorem numberedVisits_nil (place : Nat) : numberedVisits [] place = [] := rfl

@[simp] theorem numberedVisits_cons (child : List (Address × Nat))
    (rest : List (List (Address × Nat))) (place : Nat) :
    numberedVisits (child :: rest) place =
      child.map (fun visit => (place :: visit.1, visit.2)) ++
        ([], place + 1) :: numberedVisits rest (place + 1) := by
  simp [numberedVisits]

/-- The parent is visited after each of its children. -/
theorem filter_nil_numberedVisits (below : List (List (Address × Nat))) (place : Nat) :
    (numberedVisits below place).filter (·.1 = []) =
      (List.range' (place + 1) below.length).map (([], ·)) := by
  induction below generalizing place with
  | nil => rfl
  | cons child rest ih =>
    rw [numberedVisits_cons, List.filter_append, List.filter_cons, ih]
    simp [List.filter_map, Function.comp_def, List.range'_succ]

/-- What is below a child is visited with that child. -/
theorem filter_cons_numberedVisits (below : List (List (Address × Nat))) (start place : Nat)
    (address : Address) :
    (numberedVisits below start).filter (·.1 = place :: address) =
      if start ≤ place then
        ((below[place - start]?.getD []).filter (·.1 = address)).map fun visit =>
          (place :: visit.1, visit.2)
      else [] := by
  induction below generalizing start with
  | nil => simp
  | cons child rest ih =>
    rw [numberedVisits_cons, List.filter_append, List.filter_cons_of_neg (by simp), ih,
      List.filter_map]
    rcases Nat.lt_trichotomy place start with before | rfl | behind
    · have other : start ≠ place := by omega
      have outside : ¬ start + 1 ≤ place := by omega
      simp [Function.comp_def, other, outside, Nat.not_le.mpr before]
    · simp [Function.comp_def]
    · have other : start ≠ place := by omega
      have later : place - start = place - (start + 1) + 1 := by omega
      simp [Function.comp_def, other, Nat.le_of_lt behind, Nat.succ_le_of_lt behind, later]

theorem isEmpty_eq_beq_length {α : Type} (items : List α) : items.isEmpty = (0 == items.length) := by
  cases items <;> rfl

/-! ## Every place once -/

variable {σ : Type} [Branching σ]

theorem nodeAt?_append (tree : σ) (first second : Address) :
    nodeAt? tree (first ++ second) = (nodeAt? tree first).bind (nodeAt? · second) := by
  induction first generalizing tree with
  | nil => rfl
  | cons place rest ih => simp only [List.cons_append, nodeAt?, Option.bind_assoc, ih]

theorem mem_preorderAddresses_iff (tree : σ) (address : Address) :
    address ∈ preorderAddresses tree ↔ (nodeAt? tree address).isSome := by
  induction address generalizing tree with
  | nil => simp [preorderAddresses_eq, nodeAt?]
  | cons place rest ih =>
    rw [preorderAddresses_eq, List.mem_cons, cons_mem_numbered_iff, nodeAt?]
    cases child : (children tree)[place]? <;> simp [child, ih]

theorem nodup_preorderAddresses (tree : σ) : (preorderAddresses tree).Nodup := by
  induction tree using Branching.induct with
  | node tree ih =>
    rw [preorderAddresses_eq, List.nodup_cons]
    exact ⟨nil_not_mem_numbered _ _, nodup_numbered (List.forall_mem_map.mpr ih) 0⟩

/-- Both orders meet the same places. -/
theorem postorderAddresses_perm (tree : σ) :
    (postorderAddresses tree).Perm (preorderAddresses tree) := by
  induction tree using Branching.induct with
  | node tree ih =>
    rw [postorderAddresses_eq, preorderAddresses_eq]
    exact (List.perm_append_singleton _ _).trans ((numbered_perm ih 0).cons _)

theorem nodup_postorderAddresses (tree : σ) : (postorderAddresses tree).Nodup :=
  (postorderAddresses_perm tree).nodup_iff.mpr (nodup_preorderAddresses tree)

/-- A walk visits a node before its children and after each of them, and nowhere else. -/
theorem filter_visitAddresses (tree : σ) (address : Address) :
    (visitAddresses tree).filter (·.1 = address) =
      ((nodeAt? tree address).map fun node =>
        (List.range ((children node).length + 1)).map (address, ·)).getD [] := by
  induction address generalizing tree with
  | nil =>
    rw [visitAddresses_eq, List.filter_cons_of_pos (by simp), filter_nil_numberedVisits, nodeAt?,
      List.length_map, Option.map_some, Option.getD_some, List.range_eq_range', List.range'_succ,
      List.map_cons]
  | cons place rest ih =>
    rw [visitAddresses_eq, List.filter_cons_of_neg (by simp), filter_cons_numberedVisits,
      if_pos (Nat.zero_le place), Nat.sub_zero, List.getElem?_map, nodeAt?]
    cases child : (children tree)[place]? with
    | none => rfl
    | some node =>
      simp only [Option.map_some, Option.getD_some, ih, Option.bind_some]
      cases nodeAt? node rest <;> simp

/-! ## Places and positions -/

/-- Listed trees are the children at an address, from the one with the number `place` on. -/
def Below (whole : σ) (above : Address) (place : Nat) (trees : List σ) : Prop :=
  ∀ offset, nodeAt? whole (above ++ [place + offset]) = trees[offset]?

namespace Below

variable {whole tree : σ} {above : Address}

theorem children (there : nodeAt? whole above = some tree) :
    Below whole above 0 (Branching.children tree) := by
  intro offset
  rw [nodeAt?_append, there, Option.bind_some, nodeAt?, Nat.zero_add]
  cases (Branching.children tree)[offset]? <;> rfl

variable {place : Nat} {rest : List σ} (below : Below whole above place (tree :: rest))
include below

theorem head : nodeAt? whole (above ++ [place]) = some tree := below 0

theorem tail : Below whole above (place + 1) rest := by
  intro offset
  have later := below (offset + 1)
  rwa [List.getElem?_cons_succ, Nat.add_comm offset, ← Nat.add_assoc] at later

end Below

/-- A list stands in another one from an index on. -/
def StandsAt {α : Type} (part whole : List α) (index : Nat) : Prop :=
  part <+: whole.drop index

namespace StandsAt

variable {α : Type} {whole : List α} {index : Nat}

/-- Addresses stand among themselves. -/
theorem root (addresses : List Address) : StandsAt (addresses.map ([] ++ ·)) addresses 0 := by
  simp [StandsAt]

theorem left {first second : List α} (stands : StandsAt (first ++ second) whole index) :
    StandsAt first whole index :=
  (List.prefix_append first second).trans stands

theorem right {first second : List α} (stands : StandsAt (first ++ second) whole index) :
    StandsAt second whole (index + first.length) := by
  obtain ⟨rest, same⟩ := stands
  refine ⟨rest, ?_⟩
  rw [← List.drop_drop, ← same, List.append_assoc, List.drop_left]

theorem tail {x : α} {rest : List α} (stands : StandsAt (x :: rest) whole index) :
    StandsAt rest whole (index + 1) := by
  rw [← List.singleton_append] at stands
  exact stands.right

theorem idxOf [BEq α] [LawfulBEq α] {x : α} {rest : List α}
    (stands : StandsAt (x :: rest) whole index) (distinct : whole.Nodup) : whole.idxOf x = index := by
  obtain ⟨rest', same⟩ := stands
  have inside : index < whole.length := by
    by_contra outside
    rw [List.drop_eq_nil_of_le (Nat.not_lt.mp outside)] at same
    cases same
  have there : whole[index] = x := by
    rw [List.drop_eq_getElem_cons inside] at same
    exact (List.cons.inj same).1.symm
  rw [← there, distinct.idxOf_getElem]

/-- The addresses in the first of numbered children stand before those in the others. -/
theorem of_numbered_cons {whole : List Address} {child : List Address} {rest : List (List Address)}
    {above : Address} {place : Nat}
    (stands : StandsAt ((numbered (child :: rest) place).map (above ++ ·)) whole index) :
    StandsAt (child.map ((above ++ [place]) ++ ·)) whole index ∧
      StandsAt ((numbered rest (place + 1)).map (above ++ ·)) whole (index + child.length) := by
  rw [numbered_cons, List.map_append] at stands
  have first := stands.left
  have others := stands.right
  rw [List.length_map, List.length_map] at others
  refine ⟨?_, others⟩
  simpa only [List.map_map, Function.comp_def, List.append_assoc, List.singleton_append] using first

end StandsAt

/-! ## The lists by addresses -/

/-- The item of a post-order for an address: its node, its position, and the positions of the children,
left to right. -/
def itemAt? (tree : σ) (address : Address) : Option (PostorderItem σ) :=
  (nodeAt? tree address).map fun node =>
    { node
      index := (postorderAddresses tree).idxOf address
      childIndices := (List.range (children node).length).map fun place =>
        (postorderAddresses tree).idxOf (address ++ [place]) }

/-- The visit of a walk for an address when a number of children are done. -/
def visitAt? (tree : σ) (visit : Address × Nat) : Option (Visit σ) :=
  (nodeAt? tree visit.1).map fun node =>
    { node
      index := (preorderAddresses tree).idxOf visit.1
      childrenDone := visit.2
      isLast := visit.2 == (children node).length
      parent := if visit.1 = [] then none else nodeAt? tree visit.1.dropLast }

/-- Nodes below an address, in pre-order. -/
theorem flatMap_preorder_eq {whole : σ} {above : Address} {trees : List σ} {place : Nat}
    (below : Below whole above place trees) :
    (trees.flatMap preorder).map some =
      (numbered (trees.map preorderAddresses) place).map fun address =>
        nodeAt? whole (above ++ address) := by
  -- along the forest: what is below the first tree, and the trees beside it
  induction trees using nodesOf.induct generalizing above place with
  | case1 => rfl
  | case2 tree rest inside behind =>
    rw [List.flatMap_cons, preorder_eq, List.map_append, List.map_cons, inside (.children below.head),
      behind below.tail, List.map_cons, numbered_cons, List.map_append, preorderAddresses_eq]
    simp [below.head]

theorem preorder_eq_map (tree : σ) :
    (preorder tree).map some = (preorderAddresses tree).map (nodeAt? tree) := by
  have below : Below tree [] 0 (children tree) := .children rfl
  rw [preorder_eq, preorderAddresses_eq, List.map_cons, flatMap_preorder_eq below]
  rfl

theorem length_numbered_preorder (trees : List σ) (place : Nat) :
    (numbered (trees.map preorderAddresses) place).length = (trees.flatMap preorder).length := by
  induction trees using nodesOf.induct generalizing place with
  | case1 => rfl
  | case2 tree rest inside behind =>
    rw [List.flatMap_cons, preorder_eq, List.length_append, List.length_cons, ← inside 0,
      ← behind (place + 1), List.map_cons, numbered_cons, preorderAddresses_eq]
    simp [Nat.add_right_comm]

theorem length_preorderAddresses (tree : σ) :
    (preorderAddresses tree).length = ((children tree).flatMap preorder).length + 1 := by
  rw [preorderAddresses_eq, List.length_cons, length_numbered_preorder]

theorem length_numbered_postorder (trees : List σ) (place : Nat) :
    (numbered (trees.map postorderAddresses) place).length = (nodesOf trees).length := by
  induction trees using nodesOf.induct generalizing place with
  | case1 => rw [nodesOf]; rfl
  | case2 tree rest inside behind =>
    rw [nodesOf, List.length_append, List.length_cons, ← inside 0, ← behind (place + 1),
      List.map_cons, numbered_cons, postorderAddresses_eq]
    simp

theorem length_postorderAddresses (tree : σ) :
    (postorderAddresses tree).length = (nodesOf (children tree)).length + 1 := by
  rw [postorderAddresses_eq, List.length_append, length_numbered_postorder, List.length_singleton]

/-- A tree whose addresses stand in a post-order is behind those below it. -/
theorem StandsAt.of_postorderAddresses {whole tree : σ} {above : Address} {index : Nat}
    (stands : StandsAt ((postorderAddresses tree).map (above ++ ·)) (postorderAddresses whole) index) :
    (postorderAddresses whole).idxOf above = index + (nodesOf (children tree)).length ∧
      StandsAt ((numbered ((children tree).map postorderAddresses) 0).map (above ++ ·))
        (postorderAddresses whole) index := by
  rw [postorderAddresses_eq, List.map_append, List.map_singleton, List.append_nil] at stands
  have root := stands.right.idxOf (nodup_postorderAddresses whole)
  rw [List.length_map, length_numbered_postorder] at root
  exact ⟨root, stands.left⟩

/-- The positions of listed trees are those of their addresses. -/
theorem map_idxOf_postorderAddresses {whole : σ} {above : Address} {trees : List σ} {place index : Nat}
    (stands : StandsAt ((numbered (trees.map postorderAddresses) place).map (above ++ ·))
      (postorderAddresses whole) index) :
    ((List.range' place trees.length).map fun place =>
      (postorderAddresses whole).idxOf (above ++ [place])) = positionsOf trees index := by
  induction trees generalizing place index with
  | nil => rfl
  | cons tree rest ih =>
    obtain ⟨first, others⟩ := stands.of_numbered_cons
    rw [length_postorderAddresses, ← Nat.add_assoc] at others
    rw [List.length_cons, List.range'_succ, List.map_cons, first.of_postorderAddresses.1, ih others,
      positionsOf]

theorem itemAt?_eq {whole tree : σ} {above : Address} {index : Nat}
    (there : nodeAt? whole above = some tree)
    (stands : StandsAt ((postorderAddresses tree).map (above ++ ·)) (postorderAddresses whole) index) :
    itemAt? whole above = some ⟨tree, index + (nodesOf (children tree)).length,
      positionsOf (children tree) index⟩ := by
  obtain ⟨position, below⟩ := stands.of_postorderAddresses
  rw [itemAt?, there, Option.map_some, position, List.range_eq_range',
    map_idxOf_postorderAddresses below]

/-- Items of listed trees are those of their addresses. -/
theorem itemsOf_eq {whole : σ} {above : Address} {trees : List σ} {place index : Nat}
    (below : Below whole above place trees)
    (stands : StandsAt ((numbered (trees.map postorderAddresses) place).map (above ++ ·))
      (postorderAddresses whole) index) :
    (itemsOf trees index).map some =
      (numbered (trees.map postorderAddresses) place).map fun address =>
        itemAt? whole (above ++ address) := by
  induction trees using nodesOf.induct generalizing above place index with
  | case1 => rw [itemsOf]; rfl
  | case2 tree rest inside behind =>
    obtain ⟨first, others⟩ := stands.of_numbered_cons
    rw [length_postorderAddresses, ← Nat.add_assoc] at others
    rw [itemsOf, List.map_append, List.map_cons,
      inside (.children below.head) first.of_postorderAddresses.2, behind below.tail others,
      ← itemAt?_eq below.head first, List.map_cons, numbered_cons, List.map_append,
      postorderAddresses_eq]
    simp

theorem postorder_eq_map (tree : σ) :
    (postorder tree).map some = (postorderAddresses tree).map (itemAt? tree) := by
  have stands := StandsAt.root (postorderAddresses tree)
  rw [postorder_eq, itemsOf, itemsOf, List.map_append,
    itemsOf_eq (.children rfl) stands.of_postorderAddresses.2, List.map_singleton,
    ← itemAt?_eq rfl stands]
  conv_rhs => rw [postorderAddresses_eq, List.map_append]
  simp

example : (postorder (LabelTree.node 'a' [.node 'b' [.node 'c' [], .node 'd' []],
    .node 'e' [.node 'f' []]])).map (fun item => (item.node.label, item.childIndices)) =
      [('c', []), ('d', []), ('b', [0, 1]), ('f', []), ('e', [3]), ('a', [2, 4])] := by cbv

theorem map_index_itemsOf (trees : List σ) (index : Nat) :
    (itemsOf trees index).map (·.index) = List.range' index (nodesOf trees).length := by
  induction trees, index using itemsOf.induct with
  | case1 index => rw [itemsOf, nodesOf]; rfl
  | case2 tree rest index position inside behind =>
    rw [itemsOf, nodesOf, List.map_append, List.map_cons, inside, behind, List.length_append,
      List.length_cons, ← List.range'_append_1, List.range'_succ]

/-- Every item of a post-order has its own position. -/
theorem map_index_postorder (tree : σ) :
    (postorder tree).map (·.index) = List.range (postorder tree).length := by
  have nodes := congrArg List.length (map_node_itemsOf [tree] 0)
  rw [List.length_map] at nodes
  rw [postorder_eq, map_index_itemsOf, nodes, List.range_eq_range']

/-- A tree whose addresses stand in a pre-order is itself the first of them. -/
theorem StandsAt.of_preorderAddresses {whole tree : σ} {above : Address} {index : Nat}
    (stands : StandsAt ((preorderAddresses tree).map (above ++ ·)) (preorderAddresses whole) index) :
    (preorderAddresses whole).idxOf above = index ∧
      StandsAt ((numbered ((children tree).map preorderAddresses) 0).map (above ++ ·))
        (preorderAddresses whole) (index + 1) := by
  rw [preorderAddresses_eq, List.map_cons, List.append_nil] at stands
  exact ⟨stands.idxOf (nodup_preorderAddresses whole), stands.tail⟩

/-- A node stands at an address, under its parent, and at a position of the pre-order. -/
structure Located (whole node : σ) (above : Address) (parent : Option σ) (index : Nat) : Prop where
  there : nodeAt? whole above = some node
  parent_eq : (if above = [] then none else nodeAt? whole above.dropLast) = parent
  index_eq : (preorderAddresses whole).idxOf above = index

theorem Located.visitAt?_eq {whole node : σ} {above : Address} {parent : Option σ} {index : Nat}
    (located : Located whole node above parent index) (done : Nat) :
    visitAt? whole (above, done) =
      some ⟨node, index, done, done == (children node).length, parent⟩ := by
  simp only [visitAt?, located.there, located.parent_eq, located.index_eq, Option.map_some]

/-- The rest of the walk of a node, from the child with the number `place` on. -/
theorem visitsFrom_rounds_eq {whole node : σ} {above : Address} {parent : Option σ} {index : Nat}
    (located : Located whole node above parent index) {trees : List σ} {place next : Nat}
    (below : Below whole above place trees)
    (stands : StandsAt ((numbered (trees.map preorderAddresses) place).map (above ++ ·))
      (preorderAddresses whole) next) :
    (visitsFrom (VisitTask.rounds node parent index (children node).length trees place) next).map
        some =
      (numberedVisits (trees.map visitAddresses) place).map fun visit =>
        visitAt? whole (above ++ visit.1, visit.2) := by
  induction trees using nodesOf.induct generalizing node above parent index place next with
  | case1 => rw [VisitTask.rounds, visitsFrom]; rfl
  | case2 tree rest inside behind =>
    obtain ⟨first, others⟩ := stands.of_numbered_cons
    obtain ⟨position, descendants⟩ := first.of_preorderAddresses
    have child : Located whole tree (above ++ [place]) (some node) next := by
      refine ⟨below.head, ?_, position⟩
      rw [if_neg (by simp), List.dropLast_concat, located.there]
    -- the walk of the child, the visit after it, and the walks of the children beside it
    have inner := inside child (.children below.head) descendants
    have outer := behind located below.tail others
    rw [length_preorderAddresses, ← Nat.add_assoc, Nat.add_right_comm next] at outer
    rw [VisitTask.rounds, visitsFrom, visitsFrom_append, visitsFrom, sum_entered_rounds,
      List.map_cons, List.map_append, List.map_cons, inner, outer, isEmpty_eq_beq_length,
      ← child.visitAt?_eq, ← located.visitAt?_eq, List.map_cons, numberedVisits_cons,
      visitAddresses_eq]
    simp

theorem visits_eq_map (tree : σ) :
    (visits tree).map some = (visitAddresses tree).map (visitAt? tree) := by
  obtain ⟨position, descendants⟩ := (StandsAt.root (preorderAddresses tree)).of_preorderAddresses
  have root : Located tree tree [] none 0 := ⟨rfl, rfl, position⟩
  rw [visits, visitsFrom_enter, List.map_cons, visitsFrom_rounds_eq root (.children rfl) descendants,
    isEmpty_eq_beq_length, ← root.visitAt?_eq, visitAddresses_eq]
  rfl

example : (visits (LabelTree.node 'a' [.node 'b' [.node 'c' []], .node 'd' []])).map
    (fun visit => (visit.node.label, visit.index, visit.childrenDone)) =
      [('a', 0, 0), ('b', 1, 0), ('c', 2, 0), ('b', 1, 1), ('a', 0, 1), ('d', 3, 0), ('a', 0, 2)] := by
  cbv

end Traversal

end LockScript
