import LockScript.Proofs.Typing

/-! # Checking a draft is inference

The check of a draft walks over positions in a shared list of results. What it computes is plain
inference: the type and the budget of every fragment follow by recursion from its children, without
a look at the notes, and the draft is refused for the first fragment in post-order that its context
forbids, whose children do not fit, or that stands too high. Nothing else about the draft changes.
-/

namespace LockScript

section Except

variable {ε α β γ : Type}

theorem mapM_congr_of_mem {f g : α → Except ε β} {items : List α} (same : ∀ x ∈ items, f x = g x) :
    items.mapM f = items.mapM g := by
  induction items with
  | nil => rfl
  | cons x rest ih =>
    rw [List.mapM_cons, List.mapM_cons, same x List.mem_cons_self,
      ih fun y member => same y (List.mem_cons_of_mem x member)]

/-- Where one pass succeeds and another follows it item by item, so do their results. -/
theorem mapM_eq_ok_map {ε' : Type} {f : α → Except ε β} {g : α → Except ε' γ} {h : β → γ}
    {items : List α} {results : List β} (success : items.mapM f = .ok results)
    (same : ∀ x ∈ items, ∀ y, f x = .ok y → g x = .ok (h y)) :
    items.mapM g = .ok (results.map h) := by
  induction items generalizing results with
  | nil =>
    cases success
    rfl
  | cons x rest ih =>
    simp only [List.mapM_cons, bind_eq_ok, pure_eq_ok] at success
    obtain ⟨head, first, tail, others, rfl⟩ := success
    rw [List.mapM_cons, same x List.mem_cons_self head first,
      ih others fun y member => same y (List.mem_cons_of_mem x member)]
    rfl

end Except

namespace Condition

variable {κ δ α β : Type}

/-! ## Conditions without notes -/

mutual

/-- A condition without its notes. -/
def bare : Condition κ δ α → Condition κ δ Unit
  | leaf _ l => leaf () l
  | wrap _ w x => wrap () w (bare x)
  | pair _ op x y => pair () op (bare x) (bare y)
  | andOr _ x y z => andOr () (bare x) (bare y) (bare z)
  | thresh _ k items => thresh () k (bareAll items)

/-- Listed conditions without their notes. -/
def bareAll : List (Condition κ δ α) → List (Condition κ δ Unit)
  | [] => []
  | x :: rest => bare x :: bareAll rest

end

@[simp] theorem bareAll_eq_map (items : List (Condition κ δ α)) : bareAll items = items.map bare := by
  induction items with
  | nil => rfl
  | cons x rest ih => rw [bareAll, ih, List.map_cons]

theorem bare_eq (t : Condition κ δ α) : t.bare = node () (t.fragment.map bare) := by
  cases t <;> simp [bare, fragment, node, Fragment.map]

@[simp] theorem isOne_bare (t : Condition κ δ α) : t.bare.isOne = t.isOne := by
  cases t with
  | leaf _ l => cases l <;> rfl
  | _ => rfl

@[simp] theorem isZero_bare (t : Condition κ δ α) : t.bare.isZero = t.isZero := by
  cases t with
  | leaf _ l => cases l <;> rfl
  | _ => rfl

variable [KeyLike κ] [DigestLike δ]

omit [KeyLike κ] in
@[simp] theorem name_bare (t : Condition κ δ α) : t.bare.name = t.name := by
  cases t with
  | leaf _ l => rfl
  | wrap _ w x =>
    cases x with
    | leaf _ l => cases w <;> cases l <;> rfl
    | _ => cases w <;> rfl
  | pair _ op x y => cases op <;> simp [bare, name]
  | andOr _ x y z => simp [bare, name]
  | thresh _ k items => rfl

omit [KeyLike κ] in
@[simp] theorem isWrapper_bare (t : Condition κ δ α) : t.bare.isWrapper = t.isWrapper := by
  have same := name_bare t
  cases t with
  | leaf _ l => rfl
  | _ => exact congrArg (fun name => name.length == 1) same

omit [KeyLike κ] in
@[simp] theorem joint_bare (t : Condition κ δ α) : t.bare.joint = t.joint := by
  simp [joint]

theorem bodies_eq_map (tag : α → String) (items : List (Condition κ δ α)) :
    bodies tag items = items.map fun x => tag x.note ++ body tag x := by
  induction items with
  | nil => rfl
  | cons x rest ih => rw [bodies, ih, List.map_cons]

/-- What is written without notes does not depend on them. -/
@[simp] theorem text_bare (t : Condition κ δ α) : t.bare.text = t.text := by
  simp only [text]
  induction t using induct with
  | leaf _ l => rfl
  | wrap _ w x ih =>
    have outside (t : Condition κ δ α) (same : t.bare.body (fun _ => "") = t.body fun _ => "") :
        w.name ++ t.bare.joint ++ "" ++ t.bare.body (fun _ => "") =
          w.name ++ t.joint ++ "" ++ t.body fun _ => "" := by
      rw [joint_bare, same]
    cases x with
    | leaf _ l => cases w <;> cases l <;> rfl
    | _ => cases w <;> exact outside _ ih
  | pair _ op x y ihX ihY =>
    cases op <;> simp [bare, body, ihX, ihY, name]
  | andOr _ x y z ihX ihY ihZ => simp [bare, body, ihX, ihY, ihZ]
  | thresh _ k items ih =>
    have same : (items.map bare).map (fun x => "" ++ x.body fun _ => "") = items.map fun x => "" ++ x.body fun _ => "" := by
      rw [List.map_map]
      exact List.map_congr_left fun x member => congrArg _ (ih x member)
    simp only [bare, body, bodies_eq_map, bareAll_eq_map, same]

end Condition

/-! ## Inference -/

namespace Condition

variable {κ δ α : Type}

mutual

/-- The type of a condition, by recursion. -/
def inferType : Condition κ δ α → Except TypeFault FragmentType
  | leaf _ l => return FragmentType.ofLeaf l
  | wrap _ w x => do FragmentType.wrap w (← inferType x)
  | pair _ op x y => do FragmentType.pair op (← inferType x) (← inferType y)
  | andOr _ x y z => do FragmentType.andOr (← inferType x) (← inferType y) (← inferType z)
  | thresh _ k items => do FragmentType.threshold k (← inferTypes items)

/-- The types of listed conditions. -/
def inferTypes : List (Condition κ δ α) → Except TypeFault (List FragmentType)
  | [] => return []
  | x :: rest => return (← inferType x) :: (← inferTypes rest)

end

theorem inferTypes_eq_mapM (items : List (Condition κ δ α)) :
    inferTypes items = items.mapM inferType := by
  induction items with
  | nil => rfl
  | cons x rest ih => rw [inferTypes, ih, List.mapM_cons]

/-- The type of a condition is that of its fragment over the types of its children. -/
theorem inferType_eq (t : Condition κ δ α) :
    t.inferType = t.children.mapM inferType >>= fun types =>
      FragmentType.ofFragment (t.fragment.withChildren types) := by
  cases t with
  | leaf _ l => rfl
  | wrap _ w x =>
    simp [inferType, fragment, Fragment.withChildren, FragmentType.ofFragment]
  | pair _ op x y =>
    simp [inferType, fragment, Fragment.withChildren, FragmentType.ofFragment]
  | andOr _ x y z =>
    simp [inferType, fragment, Fragment.withChildren, FragmentType.ofFragment]
  | thresh _ k items =>
    simp [inferType, inferTypes_eq_mapM, fragment, Fragment.withChildren, FragmentType.ofFragment]

section Budget

variable [KeyLike κ] [DigestLike δ] (context : Context)

mutual

/-- The budget of a condition, by recursion. -/
def inferBudget : Condition κ δ α → Budget Word
  | leaf _ l => Budget.ofFragment context (.leaf l)
  | wrap _ w x => Budget.ofFragment context (.wrap w (inferBudget x) : Fragment κ δ _)
  | pair _ op x y =>
    Budget.ofFragment context (.pair op (inferBudget x) (inferBudget y) : Fragment κ δ _)
  | andOr _ x y z =>
    Budget.ofFragment context
      (.andOr (inferBudget x) (inferBudget y) (inferBudget z) : Fragment κ δ _)
  | thresh _ k items => Budget.ofFragment context (.thresh k (inferBudgets items) : Fragment κ δ _)

/-- The budgets of listed conditions. -/
def inferBudgets : List (Condition κ δ α) → List (Budget Word)
  | [] => []
  | x :: rest => inferBudget x :: inferBudgets rest

end

theorem inferBudgets_eq_map (items : List (Condition κ δ α)) :
    inferBudgets context items = items.map (inferBudget context) := by
  induction items with
  | nil => rfl
  | cons x rest ih => rw [inferBudgets, ih, List.map_cons]

/-- The budget of a condition is that of its fragment over the budgets of its children. -/
theorem inferBudget_eq (t : Condition κ δ α) :
    t.inferBudget context = Budget.ofFragment context (t.fragment.map (inferBudget context)) := by
  cases t <;> simp [inferBudget, inferBudgets_eq_map, fragment, Fragment.map]

/-- Why a condition is refused for its own fragment, if the conditions below it are not: the context
forbids the fragment, its children do not fit, or it stands too high. -/
def rejection (x : Condition κ δ α) : Option CheckError :=
  match context.checkFragment x.fragment, x.inferType with
  | .error error, _ => some (.context error)
  | .ok (), .error fault => some (.type ⟨fault, x.name, x.text⟩)
  | .ok (), .ok _ => if (x.inferBudget context).height < heightLimit then none else some .tooHigh

end Budget

/-! ## The notes play no part -/

@[simp] theorem inferType_bare (t : Condition κ δ α) : t.bare.inferType = t.inferType := by
  induction t using induct with
  | leaf _ l => rfl
  | wrap _ w x ih => simp only [bare, inferType, ih]
  | pair _ op x y ihX ihY => simp only [bare, inferType, ihX, ihY]
  | andOr _ x y z ihX ihY ihZ => simp only [bare, inferType, ihX, ihY, ihZ]
  | thresh _ k items ih =>
    have same : (items.map bare).mapM inferType = items.mapM inferType := by
      rw [List.mapM_map]
      exact mapM_congr_of_mem ih
    simp only [bare, inferType, inferTypes_eq_mapM, bareAll_eq_map, same]

@[simp] theorem inferBudget_bare [KeyLike κ] [DigestLike δ] (context : Context)
    (t : Condition κ δ α) : t.bare.inferBudget context = t.inferBudget context := by
  induction t using induct with
  | leaf _ l => rfl
  | wrap _ w x ih => simp only [bare, inferBudget, ih]
  | pair _ op x y ihX ihY => simp only [bare, inferBudget, ihX, ihY]
  | andOr _ x y z ihX ihY ihZ => simp only [bare, inferBudget, ihX, ihY, ihZ]
  | thresh _ k items ih =>
    have same : (items.map bare).map (inferBudget context) = items.map (inferBudget context) := by
      rw [List.map_map]
      exact List.map_congr_left ih
    simp only [bare, inferBudget, inferBudgets_eq_map, bareAll_eq_map, same]

section Elaborate

variable [KeyLike κ] [DigestLike δ] (context : Context)

mutual

/-- Puts a condition together again from typed children, by recursion. -/
def elaborate : Condition κ δ α → Except CheckError (Typed κ δ)
  | leaf _ l => Typed.assemble context (.leaf l)
  | wrap _ w x => do Typed.assemble context (.wrap w (← elaborate x))
  | pair _ op x y => do Typed.assemble context (.pair op (← elaborate x) (← elaborate y))
  | andOr _ x y z => do
    Typed.assemble context (.andOr (← elaborate x) (← elaborate y) (← elaborate z))
  | thresh _ k items => do Typed.assemble context (.thresh k (← elaborateAll items))

/-- Puts listed conditions together again. -/
def elaborateAll : List (Condition κ δ α) → Except CheckError (List (Typed κ δ))
  | [] => return []
  | x :: rest => return (← elaborate x) :: (← elaborateAll rest)

end

theorem elaborateAll_eq_mapM (items : List (Condition κ δ α)) :
    elaborateAll context items = items.mapM (elaborate context) := by
  induction items with
  | nil => rfl
  | cons x rest ih => rw [elaborateAll, ih, List.mapM_cons]

theorem elaborate_eq (t : Condition κ δ α) :
    t.elaborate context = t.children.mapM (elaborate context) >>= fun items =>
      Typed.assemble context (t.fragment.withChildren items) := by
  cases t with
  | leaf _ l => rfl
  | wrap _ w x => simp [elaborate, fragment, Fragment.withChildren]
  | pair _ op x y => simp [elaborate, fragment, Fragment.withChildren]
  | andOr _ x y z => simp [elaborate, fragment, Fragment.withChildren]
  | thresh _ k items => simp [elaborate, elaborateAll_eq_mapM, fragment, Fragment.withChildren]

end Elaborate

end Condition

theorem Fragment.map_withChildren {κ δ σ τ υ : Type} [Inhabited τ] [Inhabited υ] (f : τ → υ)
    (fragment : Fragment κ δ σ) {items : List τ} (same : items.length = fragment.children.length) :
    (fragment.withChildren items).map f = fragment.withChildren (items.map f) := by
  rw [← withChildren_map, fragment.children_withChildren same, withChildren_withChildren]

/-- Children that measure alike give fragments that do. -/
theorem Fragment.map_withChildren_eq {κ δ σ τ υ : Type} [Inhabited τ] {f : τ → υ} {g : σ → υ}
    (fragment : Fragment κ δ σ) {items : List τ} (same : items.map f = fragment.children.map g) :
    (fragment.withChildren items).map f = fragment.map g := by
  have count : items.length = fragment.children.length := by simpa using congrArg List.length same
  cases fragment with
  | leaf l => rfl
  | wrap w x =>
    obtain ⟨a, rfl⟩ := List.length_eq_one_iff.mp count
    simpa [children, withChildren, map] using same
  | pair op x y =>
    obtain ⟨a, b, rfl⟩ := List.length_eq_two.mp count
    simpa [children, withChildren, map] using same
  | andOr x y z =>
    obtain ⟨a, b, c, rfl⟩ := List.length_eq_three.mp count
    simpa [children, withChildren, map] using same
  | thresh k old => exact congrArg (thresh k) same

theorem Context.checkFragment_withChildren {κ δ σ τ : Type} [KeyLike κ] [Inhabited τ]
    (context : Context) (fragment : Fragment κ δ σ) (items : List τ) :
    context.checkFragment (fragment.withChildren items) = context.checkFragment fragment := by
  cases fragment with
  | leaf l => exact context.checkFragment_leaf l
  | _ => rfl

namespace Draft

variable {κ δ : Type} [KeyLike κ] [DigestLike δ] {context : Context}

/-- The walk over positions is the recursion. -/
theorem check_eq_elaborate (draft : Draft κ δ) : draft.check context = draft.elaborate context := by
  induction draft using Condition.induct_children with
  | node draft ih => rw [check_eq, Condition.elaborate_eq, mapM_congr_of_mem ih]

variable {draft : Draft κ δ}

omit [KeyLike κ] [DigestLike δ] in
/-- Typed children differ from those of the draft in their notes only. -/
theorem bare_node_withChildren {items : List (Typed κ δ)} (note : Attributes)
    (same : items.map Condition.bare = draft.children.map Condition.bare) :
    (Condition.node note (draft.fragment.withChildren items)).bare = draft.bare := by
  rw [Condition.bare_eq, Condition.bare_eq draft, Condition.fragment_node,
    draft.fragment.map_withChildren_eq same]

/-- A typed condition is the draft with what is inferred for its root. -/
theorem inferred_of_check {t : Typed κ δ} (checked : draft.check context = .ok t) :
    t.bare = draft.bare ∧ draft.inferType = .ok t.type ∧ draft.inferBudget context = t.budget := by
  induction draft using Condition.induct_children generalizing t with
  | node draft ih =>
    rw [check_eq, bind_eq_ok] at checked
    obtain ⟨items, below, success⟩ := checked
    obtain ⟨-, shape, typed, spent, -⟩ := Typed.assemble_eq_ok.mp success
    have bare := map_eq_map_of_mapM_ok below fun x member y found => (ih x member found).1
    have types := mapM_eq_ok_map below fun x member y found => (ih x member found).2.1
    have budgets := map_eq_map_of_mapM_ok below fun x member y found =>
      (ih x member found).2.2.symm
    refine ⟨?_, ?_, ?_⟩
    · rw [← Condition.node_note_fragment t, shape, bare_node_withChildren t.note bare]
    · rw [Condition.inferType_eq, types, ← typed,
        Fragment.map_withChildren _ _ (Traversal.length_of_mapM_eq_ok below)]
      rfl
    · rw [Condition.inferBudget_eq, spent, draft.fragment.map_withChildren_eq budgets]

/-- Over typed children a fragment fails just as its rejection says. -/
theorem rejection_eq {items : List (Typed κ δ)}
    (below : draft.children.mapM (check context) = .ok items) :
    draft.rejection context = match put context draft items with
      | .ok _ => none
      | .error error => some error := by
  have bare := map_eq_map_of_mapM_ok below fun x member y found => (inferred_of_check found).1
  have types := mapM_eq_ok_map below fun x member y found => (inferred_of_check found).2.1
  have budgets := map_eq_map_of_mapM_ok below fun x member y found =>
    (inferred_of_check found).2.2.symm
  have shown := bare_node_withChildren default bare
  have name : (Condition.node default (draft.fragment.withChildren items)).name = draft.name := by
    rw [← Condition.name_bare, shown, Condition.name_bare]
  have text : (Condition.node default (draft.fragment.withChildren items)).text = draft.text := by
    rw [← Condition.text_bare, shown, Condition.text_bare]
  have typed : FragmentType.ofFragment ((draft.fragment.withChildren items).map Typed.type) =
      draft.inferType := by
    rw [Condition.inferType_eq, types,
      Fragment.map_withChildren _ _ (Traversal.length_of_mapM_eq_ok below)]
    rfl
  simp only [Condition.rejection, put, Typed.assemble, name, text, typed,
    Context.checkFragment_withChildren, Condition.inferBudget_eq,
    draft.fragment.map_withChildren_eq budgets]
  cases context.checkFragment draft.fragment with
  | error error => rfl
  | ok _ =>
    cases draft.inferType with
    | error fault => rfl
    | ok type =>
      simp only [Except.mapError, bind, Except.bind]
      split <;> rfl

/-- The first error of the recursion is the first rejection in post-order. -/
theorem findSome?_rejection (trees : List (Draft κ δ)) :
    (Traversal.nodesOf trees).findSome? (Condition.rejection context) =
      match Traversal.resultsOf (put context) trees with
      | .ok _ => none
      | .error error => some error := by
  induction trees using Traversal.nodesOf.induct with
  | case1 => simp [Traversal.nodesOf, Traversal.resultsOf]
  | case2 tree rest below ih =>
    rw [Traversal.nodesOf, Traversal.resultsOf, List.findSome?_append, List.findSome?_cons, below, ih]
    cases values : Traversal.resultsOf (put context) (Branching.children tree) with
    | error error => rfl
    | ok items =>
      have typed : tree.children.mapM (check context) = .ok items := by
        rw [← values, Traversal.resultsOf_eq_mapM, funext (check_eq_resultsOf context)]
        rfl
      rw [rejection_eq typed]
      simp only [bind, Except.bind]
      cases put context tree items with
      | error error => rfl
      | ok t => cases Traversal.resultsOf (put context) rest <;> rfl

/-- The check of a draft fails with its first rejection in post-order, if there is one. -/
theorem findSome?_rejection_root (draft : Draft κ δ) :
    (Traversal.nodesOf [draft]).findSome? (Condition.rejection context) =
      match draft.check context with
      | .ok _ => none
      | .error error => some error := by
  have root : Traversal.resultsOf (put context) [draft] = (draft.check context).map ([·]) := by
    rw [Traversal.resultsOf_singleton, check_eq_resultsOf]
    rfl
  rw [findSome?_rejection, root]
  cases draft.check context <;> rfl

/-- Every node of a typed condition carries what is inferred for it. -/
theorem inferred_of_mem_preorder {t x : Typed κ δ} (checked : draft.check context = .ok t)
    (member : x ∈ Traversal.preorder t) :
    x.inferType = .ok x.type ∧ x.inferBudget context = x.budget := by
  induction draft using Condition.induct_children generalizing t with
  | node draft ih =>
    obtain rfl | ⟨child, below, member⟩ := (Condition.mem_preorder_iff t x).mp member
    · obtain ⟨bare, typed, spent⟩ := inferred_of_check checked
      rw [← Condition.inferType_bare, ← Condition.inferBudget_bare, bare, Condition.inferType_bare,
        Condition.inferBudget_bare]
      exact ⟨typed, spent⟩
    · rw [check_eq, bind_eq_ok] at checked
      obtain ⟨items, typed, success⟩ := checked
      have children : t.children = items := by
        rw [Condition.children, (Typed.assemble_eq_ok.mp success).2.1]
        exact draft.fragment.children_withChildren (Traversal.length_of_mapM_eq_ok typed)
      rw [children] at below
      obtain ⟨y, there, found⟩ := exists_of_mem_mapM_ok typed below
      exact ih y there found member

/-- Checking a draft is bottom-up inference: it is the recursion that puts every fragment on top of
its typed children, it succeeds if no fragment is rejected, and then only adds what is inferred for
every fragment; and its error is the first rejection in post-order. -/
theorem check_inference (context : Context) (draft : Draft κ δ) :
    draft.check context = draft.elaborate context ∧
      ((∃ t, draft.check context = .ok t) ↔
        ∀ x ∈ Traversal.nodesOf [draft], x.rejection context = none) ∧
      (∀ t, draft.check context = .ok t → t.bare = draft.bare ∧
        ∀ x ∈ Traversal.preorder t, x.inferType = .ok x.type ∧ x.inferBudget context = x.budget) ∧
      ∀ error, draft.check context = .error error ↔
        (Traversal.nodesOf [draft]).findSome? (Condition.rejection context) = some error := by
  refine ⟨check_eq_elaborate draft, ?_, fun t checked => ⟨(inferred_of_check checked).1,
    fun x member => inferred_of_mem_preorder checked member⟩, ?_⟩
  · rw [← List.findSome?_eq_none_iff, findSome?_rejection_root]
    cases draft.check context <;> simp
  · rw [findSome?_rejection_root]
    cases draft.check context <;> simp

end Draft

end LockScript
