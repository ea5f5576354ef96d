import LockScript.Proofs.Elaboration

/-! # Writing by visits

A text can be written while its tree is walked: every node is visited before its children and again
after each of them, and a visit writes a name, a bracket or a comma by what it knows of the walk. The
children that are walked leave out what a short name stands for. What is written in this way is the text
that the recursion over the condition gives, notes included.
-/

namespace LockScript

/-! ## The tree that is walked -/

/-- A fragment, or one of the words between its brackets. -/
inductive DisplayNode (κ δ α : Type) where
  | condition (t : Condition κ δ α)
  | thresholdK (k : Nat)
  | key (key : κ)
  | after (lock : AbsoluteLock)
  | older (lock : RelativeLock)
  | digest (digest : δ)

variable {κ δ α : Type}

/-- The words between the brackets of a leaf. -/
def Leaf.displayNodes : Leaf κ δ → List (DisplayNode κ δ α)
  | one | zero => []
  | key k | keyHash k => [.key k]
  | after lock => [.after lock]
  | older lock => [.older lock]
  | digest d => [.digest d]
  | multi ks => .thresholdK ks.k :: ks.items.map .key
  | multiA ks => .thresholdK ks.k :: ks.items.map .key

namespace Condition

/-- What is written of a condition behind its name. A short name swallows a `1`, a `0`, or the leaf below
a `c:`. -/
def displayNodes : Condition κ δ α → List (DisplayNode κ δ α)
  | leaf _ l => l.displayNodes
  | wrap _ .check (leaf _ (.key k)) | wrap _ .check (leaf _ (.keyHash k)) => [.key k]
  | wrap _ _ x => [.condition x]
  | pair _ op x y =>
    if op = .andV ∧ y.isOne then [.condition x]
    else if op = .orI ∧ x.isZero then [.condition y]
    else if op = .orI ∧ y.isZero then [.condition x]
    else [.condition x, .condition y]
  | andOr _ x y z =>
    if z.isZero then [.condition x, .condition y] else [.condition x, .condition y, .condition z]
  | thresh _ k items => .thresholdK k :: items.map .condition

mutual

/-- A number that bounds what is written. -/
def displayWeight : Condition κ δ α → Nat
  | leaf _ l => 2 + l.keys.length
  | wrap _ _ x => 1 + displayWeight x
  | pair _ _ x y => 1 + displayWeight x + displayWeight y
  | andOr _ x y z => 1 + displayWeight x + displayWeight y + displayWeight z
  | thresh _ _ items => 2 + displayWeights items

/-- The same for listed conditions together. -/
def displayWeights : List (Condition κ δ α) → Nat
  | [] => 0
  | x :: rest => displayWeight x + displayWeights rest

end

theorem displayWeights_eq_sumOf (items : List (Condition κ δ α)) :
    displayWeights items = sumOf displayWeight items := by
  induction items with
  | nil => rfl
  | cons x rest ih => simp [displayWeights, sumOf, ih]

end Condition

namespace DisplayNode

/-- A condition has what is written behind its name, and a word has nothing. -/
def children : DisplayNode κ δ α → List (DisplayNode κ δ α)
  | condition t => t.displayNodes
  | thresholdK _ | key _ | after _ | older _ | digest _ => []

/-- A number that bounds what is written. -/
def weight : DisplayNode κ δ α → Nat
  | condition t => t.displayWeight
  | thresholdK _ | key _ | after _ | older _ | digest _ => 1

theorem weight_displayNodes_leaf (l : Leaf κ δ) :
    sumOf weight (l.displayNodes : List (DisplayNode κ δ α)) < 2 + l.keys.length := by
  have keys (keys : List κ) : sumOf weight (keys.map key : List (DisplayNode κ δ α)) = keys.length := by
    induction keys with
    | nil => rfl
    | cons k rest ih => simp [sumOf, weight, ih, Nat.add_comm]
  cases l <;> simp [Leaf.displayNodes, Leaf.keys, sumOf, weight, keys]

theorem weight_displayNodes (t : Condition κ δ α) : sumOf weight t.displayNodes < t.displayWeight := by
  cases t with
  | leaf _ l => exact weight_displayNodes_leaf l
  | wrap _ w x =>
    have outside (x : Condition κ δ α) : sumOf weight [condition x] < 1 + x.displayWeight := by
      simp only [sumOf, weight]
      omega
    cases x with
    | leaf _ l =>
      cases w with
      | check =>
        cases l with
        | key k | keyHash k =>
          simp [Condition.displayNodes, Condition.displayWeight, Leaf.keys, sumOf, weight]
        | _ => exact outside _
      | _ => exact outside _
    | _ => cases w <;> exact outside _
  | pair _ op x y =>
    rw [Condition.displayNodes, Condition.displayWeight]
    split_ifs <;> simp only [sumOf, weight] <;> omega
  | andOr _ x y z =>
    rw [Condition.displayNodes, Condition.displayWeight]
    split_ifs <;> simp only [sumOf, weight] <;> omega
  | thresh _ k items =>
    have same : sumOf (fun x : Condition κ δ α => weight (condition x)) items =
        sumOf Condition.displayWeight items := rfl
    rw [Condition.displayNodes, Condition.displayWeight, Condition.displayWeights_eq_sumOf, sumOf,
      sumOf_map, same, weight]
    omega

instance : Branching (DisplayNode κ δ α) where
  children := children
  weight := weight
  weight_children node := by
    cases node with
    | condition t => exact weight_displayNodes t
    | _ => exact Nat.zero_lt_one

end DisplayNode

/-! ## Writing -/

section Written

open Traversal (Visit VisitTask visitsFrom)

variable [KeyLike κ] [DigestLike δ] (tag : α → String)

/-- The colon in front of a node, which stands behind a letter unless another letter follows. -/
def DisplayNode.colon : Option (DisplayNode κ δ α) → DisplayNode κ δ α → String
  | some (condition parent), condition t => if parent.isWrapper then t.joint else ""
  | _, _ => ""

/-- What a visit writes. -/
def DisplayNode.written (visit : Visit (DisplayNode κ δ α)) : String :=
  match visit.node with
  | condition t =>
    if t.isWrapper then
      if visit.childrenDone = 0 then tag t.note ++ t.name else ""
    else if visit.childrenDone = 0 then
      (match visit.parent with
        | some (condition parent) => if parent.isWrapper then ":" else ""
        | _ => "") ++ tag t.note ++ t.name ++ if visit.isLast then "" else "("
    else if visit.isLast then ")" else ","
  | thresholdK k => toString k
  | key k => KeyLike.text k
  | after lock => toString lock.value
  | older lock => toString lock.value
  | digest d => DigestLike.text d

/-- A condition in writing, by a walk over its fragments and their words. -/
def Condition.display (t : Condition κ δ α) : String :=
  String.join ((Traversal.visits (.condition t)).map (DisplayNode.written tag))

namespace DisplayNode

/-- A node in writing. -/
def text : DisplayNode κ δ α → String
  | condition t => t.taggedText tag
  | thresholdK k => toString k
  | key k => KeyLike.text k
  | after lock => toString lock.value
  | older lock => toString lock.value
  | digest d => DigestLike.text d

/-- What tasks write. -/
def shown (tasks : List (VisitTask (DisplayNode κ δ α))) (index : Nat) : String :=
  String.join ((visitsFrom tasks index).map (written tag))

theorem shown_nil (index : Nat) : shown tag ([] : List (VisitTask (DisplayNode κ δ α))) index = "" := by
  rw [shown, visitsFrom, List.map_nil, String.join_nil]

theorem shown_again (visit : Visit (DisplayNode κ δ α)) (rest : List (VisitTask (DisplayNode κ δ α)))
    (index : Nat) : shown tag (.again visit :: rest) index = written tag visit ++ shown tag rest index := by
  rw [shown, visitsFrom, List.map_cons, String.join_cons, shown]

/-- A node that is done leaves nothing but the colon and its text. -/
def Shows (node : DisplayNode κ δ α) : Prop :=
  ∀ parent index, shown tag [.enter node parent] index = colon parent node ++ node.text tag

theorem shown_enter {node : DisplayNode κ δ α} (shows : node.Shows tag)
    (parent : Option (DisplayNode κ δ α)) (rest : List (VisitTask (DisplayNode κ δ α))) (index : Nat) :
    shown tag (.enter node parent :: rest) index = colon parent node ++ node.text tag ++
      shown tag rest (index + sumOf VisitTask.entered [.enter node parent]) := by
  rw [← List.singleton_append, ← shows, shown, Traversal.visitsFrom_append, List.map_append,
    String.join_append]
  rfl

/-- A call closes behind its last argument, and has a comma behind every other one. -/
theorem shown_rounds {t : Condition κ δ α} (call : t.isWrapper = false)
    (parent : Option (DisplayNode κ δ α)) (index : Nat) {nodes : List (DisplayNode κ δ α)}
    {before arity : Nat} (count : before + nodes.length = arity) (some : nodes ≠ [])
    (below : ∀ node ∈ nodes, node.Shows tag) (next : Nat) :
    shown tag (VisitTask.rounds (condition t) parent index arity nodes before) next =
      ",".intercalate (nodes.map (text tag)) ++ ")" := by
  induction nodes generalizing before next with
  | nil => exact absurd rfl some
  | cons node rest ih =>
    obtain ⟨first, others⟩ := List.forall_mem_cons.mp below
    have inside : colon (.some (condition t)) node = "" := by cases node <;> simp [colon, call]
    rw [VisitTask.rounds, shown_enter tag first, inside, String.empty_append, shown_again]
    cases rest with
    | nil =>
      have last : (before + 1 == arity) = true := beq_iff_eq.mpr count
      simp [written, call, last, VisitTask.rounds, shown_nil]
    | cons node' rest =>
      have notLast : (before + 1 == arity) = false := by
        simp only [List.length_cons] at count
        exact beq_false_of_ne (by omega)
      rw [ih (by simp only [List.length_cons] at count ⊢; omega) (List.cons_ne_nil _ _) others,
        List.map_cons, List.map_cons, List.map_cons, String.intercalate_cons_cons]
      simp [written, call, notLast, String.append_assoc]

/-- The walk of a condition in writing. -/
theorem shown_condition (t : Condition κ δ α) (parent : Option (DisplayNode κ δ α)) (index : Nat) :
    shown tag [.enter (condition t) parent] index =
      written tag ⟨condition t, index, 0, t.displayNodes.isEmpty, parent⟩ ++
        shown tag (VisitTask.rounds (condition t) parent index t.displayNodes.length t.displayNodes 0)
          (index + 1) := by
  rw [shown, Traversal.visitsFrom_enter, List.map_cons, String.join_cons]
  rfl

omit [KeyLike κ] in
/-- The colon in front of a condition that is not a letter itself. -/
theorem colon_condition {t : Condition κ δ α} (call : t.isWrapper = false)
    (parent : Option (DisplayNode κ δ α)) :
    colon parent (condition t) = match parent with
      | some (condition parent) => if parent.isWrapper then ":" else ""
      | _ => "" := by
  cases parent with
  | none => rfl
  | some node => cases node <;> simp [colon, Condition.joint, call]

theorem shows_name {t : Condition κ δ α} (call : t.isWrapper = false) (nothing : t.displayNodes = [])
    (body : t.body tag = t.name) : (condition t).Shows tag := by
  intro parent index
  rw [shown_condition, nothing, colon_condition call, text, Condition.taggedText, body]
  simp [written, call, VisitTask.rounds, shown_nil, String.append_assoc]

theorem shows_call {t : Condition κ δ α} (call : t.isWrapper = false) (more : t.displayNodes ≠ [])
    (body : t.body tag = callText t.name (t.displayNodes.map (text tag)))
    (below : ∀ node ∈ t.displayNodes, node.Shows tag) : (condition t).Shows tag := by
  intro parent index
  have notEmpty : t.displayNodes.isEmpty = false := by simpa using more
  rw [shown_condition, shown_rounds tag call parent index (Nat.zero_add _) more below, notEmpty,
    colon_condition call, text, Condition.taggedText, body]
  simp [written, call, callText, String.append_assoc]

theorem shows_letter {t x : Condition κ δ α} (letter : t.isWrapper = true)
    (only : t.displayNodes = [condition x])
    (body : t.body tag = t.name ++ x.joint ++ tag x.note ++ x.body tag) (below : (condition x).Shows tag) : (condition t).Shows tag := by
  intro parent index
  have first : colon parent (condition t) = "" := by
    cases parent with
    | none => rfl
    | some node => cases node <;> simp [colon, Condition.joint, letter]
  rw [shown_condition, only, VisitTask.rounds, VisitTask.rounds, shown_enter tag below, shown_again,
    shown_nil, first, text, text, Condition.taggedText, Condition.taggedText, body]
  simp [written, letter, colon, String.append_assoc]

/-- A word is a node in itself. -/
theorem shows_word {node : DisplayNode κ δ α} (word : ∀ t, node ≠ condition t) : node.Shows tag := by
  intro parent index
  cases node with
  | condition t => exact absurd rfl (word t)
  | _ =>
    rw [shown, Traversal.visitsFrom_enter]
    simp [Branching.children, children, VisitTask.rounds, visitsFrom, written, colon, text]

theorem shows_leaf (note : α) (l : Leaf κ δ) : (condition (.leaf note l)).Shows tag := by
  have words : ∀ node ∈ l.displayNodes, node.Shows tag := by
    intro node member
    refine shows_word tag fun t same => ?_
    subst same
    cases l <;> simp [Leaf.displayNodes] at member
  have keys (keys : List κ) :
      keys.map KeyLike.text = (keys.map (key (δ := δ) (α := α))).map (text tag) := by
    rw [List.map_map]
    rfl
  cases l with
  | one | zero => exact shows_name tag rfl rfl rfl
  | key k | keyHash k | after lock | older lock | digest d =>
    exact shows_call tag rfl (List.cons_ne_nil _ _) rfl words
  | multi ks | multiA ks =>
    exact shows_call tag rfl (List.cons_ne_nil _ _)
      (congrArg (callText _ ∘ List.cons _) (keys ks.items)) words

/-- A connective in writing, if no short name stands for it. -/
theorem shows_pair {note : α} {op : Connective} {x y : Condition κ δ α}
    (name : (Condition.pair note op x y).name = op.name)
    (both : (Condition.pair note op x y).displayNodes = [condition x, condition y])
    (body : (Condition.pair note op x y).body tag = callText op.name [x.taggedText tag, y.taggedText tag])
    (ihX : (condition x).Shows tag) (ihY : (condition y).Shows tag) :
    (condition (.pair note op x y)).Shows tag := by
  refine shows_call tag ?_ (by rw [both]; exact List.cons_ne_nil _ _) (by rw [body, name, both]; rfl)
    (by simp [both, ihX, ihY])
  rw [Condition.isWrapper, name]
  cases op <;> rfl

/-- Every condition is written as its text. -/
theorem shows (t : Condition κ δ α) : (condition t).Shows tag := by
  induction t using Condition.induct with
  | leaf note l => exact shows_leaf tag note l
  | wrap note w x ih =>
    have outside (x : Condition κ δ α) (below : (condition x).Shows tag)
        (name : (Condition.wrap note w x).name = w.name)
        (only : (Condition.wrap note w x).displayNodes = [condition x])
        (body : (Condition.wrap note w x).body tag = w.name ++ x.joint ++ tag x.note ++ x.body tag) :
        (condition (.wrap note w x)).Shows tag := by
      refine shows_letter tag ?_ only (by rw [body, name]) below
      rw [Condition.isWrapper, name]
      cases w <;> rfl
    cases x with
    | leaf _ l =>
      cases w with
      | check =>
        cases l with
        | key k | keyHash k =>
          refine shows_call tag ?_ (List.cons_ne_nil _ _) rfl
            (List.forall_mem_singleton.mpr (shows_word tag fun t same => by cases same))
          simp only [Condition.isWrapper, Condition.name]
          rfl
        | _ => exact outside _ ih rfl rfl rfl
      | _ => exact outside _ ih rfl rfl rfl
    | _ => cases w <;> exact outside _ ih rfl rfl rfl
  | pair note op x y ihX ihY =>
    cases op with
    | andV =>
      cases one : y.isOne with
      | false =>
        exact shows_pair tag (by simp [Condition.name, one]) (by simp [Condition.displayNodes, one])
          (by simp [Condition.body, one, Condition.taggedText]) ihX ihY
      | true =>
        refine shows_letter tag ?_ (by simp [Condition.displayNodes, one]) (by simp [Condition.body, one]) ihX
        simp only [Condition.isWrapper, Condition.name, one]
        rfl
    | orI =>
      cases zero : x.isZero with
      | true =>
        refine shows_letter tag ?_ (by simp [Condition.displayNodes, zero]) (by simp [Condition.body, zero]) ihY
        cases zero' : y.isZero <;> (simp only [Condition.isWrapper, Condition.name, zero, zero']; rfl)
      | false =>
        cases zero' : y.isZero with
        | true =>
          refine shows_letter tag ?_ (by simp [Condition.displayNodes, zero, zero'])
            (by simp [Condition.body, zero, zero']) ihX
          simp only [Condition.isWrapper, Condition.name, zero', if_true]
          rfl
        | false =>
          exact shows_pair tag (by simp [Condition.name, zero, zero'])
            (by simp [Condition.displayNodes, zero, zero'])
            (by simp [Condition.body, zero, zero', Condition.taggedText]) ihX ihY
    | _ => exact shows_pair tag rfl rfl rfl ihX ihY
  | andOr note x y z ihX ihY ihZ =>
    cases zero : z.isZero <;> refine shows_call tag ?_ (by simp [Condition.displayNodes, zero])
      (by simp [Condition.displayNodes, zero, Condition.body, text, Condition.name, Condition.taggedText])
      (by simp [Condition.displayNodes, zero, ihX, ihY, ihZ]) <;>
      (simp only [Condition.isWrapper, Condition.name, zero]; rfl)
  | thresh note k items ih =>
    refine shows_call tag ?_ (List.cons_ne_nil _ _) ?_ ?_
    · simp only [Condition.isWrapper, Condition.name]
      rfl
    · rw [Condition.body, Condition.displayNodes, Condition.bodies_eq_map, List.map_cons, List.map_map]
      rfl
    · rw [Condition.displayNodes, List.forall_mem_cons, List.forall_mem_map]
      exact ⟨shows_word tag (fun t same => by cases same), ih⟩

end DisplayNode

/-- The walk writes the text, with its notes. -/
theorem Condition.display_eq (t : Condition κ δ α) : t.display tag = t.taggedText tag := by
  have whole := DisplayNode.shows tag t none 0
  exact whole.trans String.empty_append

end Written

end LockScript
