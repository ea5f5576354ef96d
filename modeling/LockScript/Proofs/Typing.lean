import LockScript.Proofs.Traversal

/-! # Validated conditions

A condition is validated if it comes out of the check of a draft, and a draft can only be put
together by the constructors that test their arguments. Every node of a validated condition is
therefore one that the typing rules accept over its own children, and every threshold is in range.
Each rule is turned around once, into what it demands of the children and what it gives the whole.
-/

namespace LockScript

section Except

variable {ε ε' α β : Type}

theorem bind_eq_ok {x : Except ε α} {f : α → Except ε β} {b : β} :
    x >>= f = .ok b ↔ ∃ a, x = .ok a ∧ f a = .ok b := by
  cases x <;> simp [bind, Except.bind]

theorem map_eq_ok {x : Except ε α} {f : α → β} {b : β} :
    x.map f = .ok b ↔ ∃ a, x = .ok a ∧ f a = b := by
  cases x <;> simp [Except.map]

theorem mapError_eq_ok {x : Except ε α} {f : ε → ε'} {a : α} :
    x.mapError f = .ok a ↔ x = .ok a := by
  cases x <;> simp [Except.mapError]

theorem pure_eq_ok {a b : α} : (pure a : Except ε α) = .ok b ↔ a = b := by
  simp [pure, Except.pure]

theorem fmap_eq_ok {x : Except ε α} {f : α → β} {b : β} :
    f <$> x = .ok b ↔ ∃ a, x = .ok a ∧ f a = b :=
  map_eq_ok

theorem throw_eq_ok {error : ε} {a : α} : (throw error : Except ε α) = .ok a ↔ False := by
  simp [throw, throwThe, MonadExceptOf.throw]

theorem forM_eq_ok {f : α → Except ε Unit} {items : List α} {u : Unit} :
    items.forM f = .ok u ↔ ∀ x ∈ items, f x = .ok () := by
  induction items with
  | nil => simp [pure, Except.pure]
  | cons x rest ih =>
    have step : (x :: rest).forM f = .ok () ↔ f x = .ok () ∧ rest.forM f = .ok () :=
      bind_eq_ok.trans ⟨fun ⟨_, head, tail⟩ => ⟨head, tail⟩, fun ⟨head, tail⟩ => ⟨(), head, tail⟩⟩
    rw [step, ih, List.forall_mem_cons]

/-- Every result of a successful pass over a list is the result of one of its items. -/
theorem exists_of_mem_mapM_ok {f : α → Except ε β} {items : List α} {results : List β}
    (success : items.mapM f = .ok results) {y : β} (member : y ∈ results) :
    ∃ x ∈ items, f x = .ok y := by
  induction items generalizing results with
  | nil =>
    cases success
    cases member
  | cons x rest ih =>
    simp only [List.mapM_cons, bind_eq_ok, pure_eq_ok] at success
    obtain ⟨head, first, tail, others, rfl⟩ := success
    rcases List.mem_cons.mp member with rfl | member
    · exact ⟨x, List.mem_cons_self, first⟩
    · obtain ⟨z, there, answer⟩ := ih others member
      exact ⟨z, List.mem_cons_of_mem x there, answer⟩

/-- Where each result measures as its item does, so do the lists. -/
theorem map_eq_map_of_mapM_ok {γ : Type} {f : α → Except ε β} {g : β → γ} {h : α → γ}
    {items : List α} {results : List β} (success : items.mapM f = .ok results)
    (same : ∀ x ∈ items, ∀ y, f x = .ok y → g y = h x) : results.map g = items.map h := by
  induction items generalizing results with
  | nil =>
    cases success
    rfl
  | cons x rest ih =>
    simp only [List.mapM_cons, bind_eq_ok, pure_eq_ok] at success
    obtain ⟨head, first, tail, others, rfl⟩ := success
    rw [List.map_cons, List.map_cons, same x List.mem_cons_self head first,
      ih others fun y member => same y (List.mem_cons_of_mem x member)]

end Except

theorem Fragment.children_withChildren {κ δ σ τ : Type} [Inhabited τ] (fragment : Fragment κ δ σ)
    {items : List τ} (same : items.length = fragment.children.length) :
    (fragment.withChildren items).children = items := by
  cases fragment with
  | leaf l => exact (List.eq_nil_of_length_eq_zero same).symm
  | wrap w x =>
    obtain ⟨a, rfl⟩ := List.length_eq_one_iff.mp same
    rfl
  | pair op x y =>
    obtain ⟨a, b, rfl⟩ := List.length_eq_two.mp same
    rfl
  | andOr x y z =>
    obtain ⟨a, b, c, rfl⟩ := List.length_eq_three.mp same
    rfl
  | thresh k old => rfl

@[simp] theorem Fragment.withChildren_withChildren {κ δ σ τ υ : Type} [Inhabited τ] [Inhabited υ]
    (fragment : Fragment κ δ σ) (items : List τ) (items' : List υ) :
    (fragment.withChildren items).withChildren items' = fragment.withChildren items' := by
  cases fragment <;> rfl

@[simp] theorem Fragment.withChildren_children {κ δ σ : Type} [Inhabited σ]
    (fragment : Fragment κ δ σ) : fragment.withChildren fragment.children = fragment := by
  cases fragment <;> rfl

/-- The height of a node over the heights of its children; only leaves have height zero. -/
def Fragment.levels {κ δ σ : Type} (height : σ → Nat) : Fragment κ δ σ → Nat
  | .leaf _ => 0
  | fragment => (fragment.children.map height).foldr max 0 + 1

theorem Fragment.levels_map {κ δ σ τ : Type} (height : τ → Nat) (f : σ → τ)
    (fragment : Fragment κ δ σ) : (fragment.map f).levels height = fragment.levels (height ∘ f) := by
  cases fragment <;> simp [Fragment.levels, Fragment.map, Fragment.children]

theorem Fragment.levels_withChildren {κ δ σ τ : Type} [Inhabited τ] {high : σ → Nat}
    {high' : τ → Nat} (fragment : Fragment κ δ σ) {items : List τ}
    (same : items.map high' = fragment.children.map high) :
    (fragment.withChildren items).levels high' = fragment.levels high := by
  have count : items.length = fragment.children.length := by
    simpa using congrArg List.length same
  have below := congrArg (fun children => (children.map high').foldr max 0 + 1)
    (fragment.children_withChildren count)
  rw [same] at below
  cases fragment with
  | leaf l => rfl
  | wrap | pair | andOr | thresh => exact below

/-- What stands for the children of a leaf does not matter. -/
theorem Context.checkFragment_leaf {κ δ σ τ : Type} [KeyLike κ] (context : Context) (l : Leaf κ δ) :
    context.checkFragment (.leaf l : Fragment κ δ σ) =
      context.checkFragment (.leaf l : Fragment κ δ τ) := by
  cases l <;> rfl

namespace Draft

variable {κ δ : Type} [KeyLike κ]

/-- The drafts that the constructors can put together. The remaining constructors are short for
some of these. -/
inductive Built (context : Context) : Draft κ δ → Prop where
  | one : Built context one
  | zero : Built context zero
  | digest (d : δ) : Built context (digest d)
  | leaf {l : Leaf κ δ} {draft : Draft κ δ} (allowed : ofLeaf context l = .ok draft) :
    Built context draft
  | wrap {w : Wrapper} {x draft : Draft κ δ} (below : Built context x)
    (low : wrap w x = .ok draft) : Built context draft
  | pair {op : Connective} {x y draft : Draft κ δ} (left : Built context x)
    (right : Built context y) (low : pair op x y = .ok draft) : Built context draft
  | andOr {x y z draft : Draft κ δ} (first : Built context x) (second : Built context y)
    (third : Built context z) (low : andOr x y z = .ok draft) : Built context draft
  | thresh {k : Nat} {items : List (Draft κ δ)} {draft : Draft κ δ}
    (below : ∀ x ∈ items, Built context x) (inRange : thresh k items = .ok draft) :
    Built context draft

omit [KeyLike κ] in
theorem compound_eq_ok {fragment : Fragment κ δ (Draft κ δ)} {draft : Draft κ δ} :
    compound fragment = .ok draft ↔ draft.fragment = fragment ∧
      draft.height = (fragment.children.map height).foldr max 0 + 1 ∧ draft.height < heightLimit := by
  constructor
  · intro success
    simp only [compound] at success
    split at success
    next low =>
      cases success
      exact ⟨Condition.fragment_node _ _, Condition.note_node _ _, by simpa [height] using low⟩
    next => cases success
  · rintro ⟨rfl, high, low⟩
    rw [high] at low
    rw [compound, if_pos low, ← high]
    exact congrArg Except.ok (Condition.node_note_fragment draft)

omit [KeyLike κ] in
theorem thresh_eq_ok {k : Nat} {items : List (Draft κ δ)} {draft : Draft κ δ} :
    thresh k items = .ok draft ↔
      compound (.thresh k items) = .ok draft ∧ 0 < k ∧ k ≤ items.length := by
  simp only [thresh, Fragment.thresh?, bind_eq_ok, mapError_eq_ok, map_eq_ok, Threshold.ofList]
  by_cases valid : 0 < k ∧ k ≤ items.length
  · simp [valid]
  · simp [valid]

/-- The children of a built draft were built before it, and a threshold is in range. -/
theorem Built.node {context : Context} {draft : Draft κ δ} (built : Built context draft) :
    draft.height = draft.fragment.levels height ∧ (∀ x ∈ draft.children, Built context x) ∧
      ∀ k items, draft.fragment = .thresh k items → 0 < k ∧ k ≤ items.length := by
  cases built with
  | one | zero | digest d => exact ⟨rfl, fun x member => absurd member List.not_mem_nil, nofun⟩
  | leaf allowed =>
    simp only [ofLeaf, bind_eq_ok, pure_eq_ok] at allowed
    obtain ⟨_, _, rfl⟩ := allowed
    exact ⟨rfl, fun x member => absurd member List.not_mem_nil, nofun⟩
  | wrap below low =>
    obtain ⟨shape, high, _⟩ := compound_eq_ok.mp low
    simp [Condition.children, shape, Fragment.children, below, high, Fragment.levels]
  | pair left right low =>
    obtain ⟨shape, high, _⟩ := compound_eq_ok.mp low
    simp [Condition.children, shape, Fragment.children, left, right, high, Fragment.levels]
  | andOr first second third low =>
    obtain ⟨shape, high, _⟩ := compound_eq_ok.mp low
    simp [Condition.children, shape, Fragment.children, first, second, third, high, Fragment.levels]
  | thresh below inRange =>
    obtain ⟨low, range⟩ := thresh_eq_ok.mp inRange
    obtain ⟨shape, high, _⟩ := compound_eq_ok.mp low
    refine ⟨by rw [high, shape]; rfl, ?_, ?_⟩
    · rw [Condition.children, shape]
      exact below
    intro k items same
    rw [shape] at same
    cases same
    exact range

variable [DigestLike δ]

/-- Puts a fragment of a draft on top of typed children. -/
def put (context : Context) (x : Draft κ δ) (items : List (Typed κ δ)) :
    Except CheckError (Typed κ δ) :=
  Typed.assemble context (x.fragment.withChildren items)

/-- The children of a root are typed one after the other. -/
theorem passed_checkBelow (context : Context) (trees : List (Draft κ δ))
    (results : Array (Typed κ δ)) :
    Traversal.Passed trees results (Traversal.resultsOf (put context) trees)
      (trees.foldlM (checkBelow context) results) := by
  induction trees generalizing results with
  | nil => exact Traversal.Passed.nil (put context) results
  | cons tree rest ih =>
    rw [List.foldlM_cons]
    exact (Traversal.passed_postorder (put context) tree results).cons fun later _ => ih later

/-- The places of the children of a root are found from the number of results behind each. -/
theorem foldlM_roots (context : Context) (trees : List (Draft κ δ)) (results : Array (Typed κ δ))
    (roots : Array Nat) :
    trees.foldlM (fun (results, roots) child => do
        let results ← checkBelow context results child
        return (results, roots.push (results.size - 1))) (results, roots) =
      (trees.foldlM (checkBelow context) results).map fun later =>
        (later, roots ++ Traversal.positionsOf trees results.size) := by
  induction trees generalizing results roots with
  | nil => simp [Traversal.positionsOf, pure, Except.pure, Except.map]
  | cons tree rest ih =>
    have passed : Traversal.Passed [tree] results _ (checkBelow context results tree) :=
      Traversal.passed_postorder (put context) tree results
    simp only [List.foldlM_cons]
    cases ran : checkBelow context results tree with
    | error error => rfl
    | ok later =>
      have size : later.size = results.size + (Traversal.nodesOf tree.children).length + 1 := by
        rw [passed.size_eq ran]
        exact congrArg (results.size + ·) (Traversal.length_nodesOf_singleton tree)
      refine (ih later (roots.push (later.size - 1))).trans ?_
      rw [size, Nat.add_sub_cancel]
      rfl

/-- A draft is checked by recursion. -/
theorem check_eq_resultsOf (context : Context) (draft : Draft κ δ) :
    draft.check context = Traversal.resultsOf (put context) draft.children >>= put context draft := by
  have passed := passed_checkBelow context draft.children #[]
  have roots := foldlM_roots context draft.children #[] #[]
  rw [check, roots]
  cases values : Traversal.resultsOf (put context) draft.children with
  | error error =>
    rw [values, Traversal.Passed] at passed
    rw [passed]
    rfl
  | ok found =>
    rw [values] at passed
    obtain ⟨later, ran, -, -, located⟩ := passed
    rw [ran]
    simp only [Except.map, bind, Except.bind]
    rw [Array.toList_appendList, List.nil_append, located]
    rfl

/-- A draft is checked by checking its children and putting them together. -/
theorem check_eq (context : Context) (draft : Draft κ δ) :
    draft.check context = draft.children.mapM (check context) >>= fun items =>
      Typed.assemble context (draft.fragment.withChildren items) := by
  rw [check_eq_resultsOf, Traversal.resultsOf_eq_mapM]
  simp only [funext (check_eq_resultsOf context)]
  rfl

end Draft

theorem Budget.height_ofFragment {κ δ ν : Type} [KeyLike κ] [DigestLike δ] [Quantity ν]
    (context : Context) (fragment : Fragment κ δ (Budget ν)) :
    (Budget.ofFragment context fragment).height = fragment.levels Budget.height := by
  cases fragment with
  | leaf l => cases l <;> rfl
  | wrap w x =>
    have above : (Budget.wrap w x).height = x.height + 1 := by cases w <;> rfl
    exact above.trans (congrArg (· + 1) (Nat.max_zero x.height).symm)
  | pair op x y => cases op <;> exact Nat.add_comm _ _
  | andOr x y z => exact Nat.add_comm _ _
  | thresh k items => exact Nat.add_comm _ _

namespace Typed

variable {κ δ : Type} [KeyLike κ] [DigestLike δ]

omit [KeyLike κ] [DigestLike δ] in
/-- Induction over typed conditions. -/
@[elab_as_elim]
theorem induct {motive : Typed κ δ → Prop}
    (leaf : ∀ note l, motive (.leaf note l))
    (wrap : ∀ note w (x : Typed κ δ), motive x → motive (.wrap note w x))
    (pair : ∀ note op (x y : Typed κ δ), motive x → motive y → motive (.pair note op x y))
    (andOr : ∀ note (x y z : Typed κ δ), motive x → motive y → motive z →
      motive (.andOr note x y z))
    (thresh : ∀ note k (items : List (Typed κ δ)), (∀ x ∈ items, motive x) →
      motive (.thresh note k items)) (t : Typed κ δ) : motive t :=
  Condition.induct leaf wrap pair andOr thresh t

/-- What putting a fragment on top of typed children requires, and what comes out of it. -/
theorem assemble_eq_ok {context : Context} {fragment : Fragment κ δ (Typed κ δ)} {t : Typed κ δ} :
    assemble context fragment = .ok t ↔
      context.checkFragment fragment = .ok () ∧ t.fragment = fragment ∧
        FragmentType.ofFragment (fragment.map type) = .ok t.type ∧
        t.budget = Budget.ofFragment context (fragment.map budget) ∧
        t.budget.height < heightLimit := by
  simp only [assemble, bind_eq_ok, mapError_eq_ok]
  constructor
  · rintro ⟨_, allowed, type, typed, success⟩
    split at success
    next low =>
      rw [pure_eq_ok] at success
      subst success
      simpa [Typed.type, Typed.budget] using ⟨allowed, typed, low⟩
    next => cases success
  · rintro ⟨allowed, shape, typed, spent, low⟩
    refine ⟨(), allowed, t.type, typed, ?_⟩
    rw [← spent, if_pos low, pure_eq_ok, ← shape]
    exact Condition.node_note_fragment t

/-- A condition that comes out of the check of a draft. -/
def Validated (context : Context) (t : Typed κ δ) : Prop :=
  ∃ draft : Draft κ δ, draft.Built context ∧ draft.check context = .ok t

namespace Validated

variable {context : Context} {t : Typed κ δ}

/-- The root of a validated condition was put together from validated conditions. -/
theorem node (valid : Validated context t) :
    assemble context t.fragment = .ok t ∧ (∀ x ∈ t.children, Validated context x) ∧
      ∀ k items, t.fragment = .thresh k items → 0 < k ∧ k ≤ items.length := by
  obtain ⟨draft, built, checked⟩ := valid
  rw [Draft.check_eq, bind_eq_ok] at checked
  obtain ⟨items, below, success⟩ := checked
  have shape := (assemble_eq_ok.mp success).2.1
  have same := Traversal.length_of_mapM_eq_ok below
  have children : t.children = items := by
    rw [Condition.children, shape]
    exact draft.fragment.children_withChildren same
  obtain ⟨_, builtBelow, inRange⟩ := built.node
  refine ⟨by rw [shape, success], ?_, ?_⟩
  · intro x member
    rw [children] at member
    obtain ⟨y, there, checked⟩ := exists_of_mem_mapM_ok below member
    exact ⟨y, builtBelow y there, checked⟩
  · intro k found threshold
    rw [shape] at threshold
    cases source : draft.fragment with
    | thresh k' old =>
      obtain ⟨positive, bounded⟩ := inRange k' old source
      rw [source] at threshold
      cases threshold
      refine ⟨positive, ?_⟩
      rw [same, Condition.children, source]
      exact bounded
    | leaf _ | wrap _ _ | pair _ _ _ | andOr _ _ _ =>
      rw [source] at threshold
      cases threshold

theorem child (valid : Validated context t) {x : Typed κ δ} (member : x ∈ t.children) :
    Validated context x :=
  valid.node.2.1 x member

theorem of_mem_preorder (valid : Validated context t) {x : Typed κ δ}
    (below : x ∈ Traversal.preorder t) : Validated context x := by
  induction t using Condition.induct_children with
  | node t ih =>
    obtain rfl | ⟨y, member, below⟩ := (Condition.mem_preorder_iff t x).mp below
    · exact valid
    · exact ih y member (valid.child member) below

theorem allowed (valid : Validated context t) : context.checkFragment t.fragment = .ok () :=
  (assemble_eq_ok.mp valid.node.1).1

theorem typed (valid : Validated context t) :
    FragmentType.ofFragment (t.fragment.map type) = .ok t.type :=
  (assemble_eq_ok.mp valid.node.1).2.2.1

theorem spent (valid : Validated context t) :
    t.budget = Budget.ofFragment context (t.fragment.map budget) :=
  (assemble_eq_ok.mp valid.node.1).2.2.2.1

/-- Drafts and typed conditions count heights alike. -/
theorem height_eq {draft : Draft κ δ} (built : draft.Built context)
    (checked : draft.check context = .ok t) : t.budget.height = draft.height := by
  induction draft using Condition.induct_children generalizing t with
  | node draft ih =>
    rw [Draft.check_eq, bind_eq_ok] at checked
    obtain ⟨items, below, success⟩ := checked
    obtain ⟨high, builtBelow, _⟩ := built.node
    have heights : items.map (fun x => x.budget.height) = draft.children.map Draft.height :=
      map_eq_map_of_mapM_ok below fun x member y checked => ih x member (builtBelow x member) checked
    have same := Traversal.length_of_mapM_eq_ok below
    rw [(assemble_eq_ok.mp success).2.2.2.1, Budget.height_ofFragment, Fragment.levels_map, high]
    exact draft.fragment.levels_withChildren heights

private theorem exists_drafts {items : List (Typed κ δ)}
    (valid : ∀ x ∈ items, Validated context x) :
    ∃ drafts : List (Draft κ δ), (∀ draft ∈ drafts, draft.Built context) ∧
      drafts.mapM (Draft.check context) = .ok items := by
  induction items with
  | nil => exact ⟨[], nofun, rfl⟩
  | cons x rest ih =>
    obtain ⟨⟨draft, built, checked⟩, others⟩ := List.forall_mem_cons.mp valid
    obtain ⟨drafts, builtAll, checkedAll⟩ := ih others
    refine ⟨draft :: drafts, List.forall_mem_cons.mpr ⟨built, builtAll⟩, ?_⟩
    rw [List.mapM_cons, checked, checkedAll]
    rfl

/-- A condition is validated if its root is assembled from validated conditions; only thresholds are
tested by drafts alone. -/
theorem iff_node : Validated context t ↔
    assemble context t.fragment = .ok t ∧ (∀ x ∈ t.children, Validated context x) ∧
      ∀ k items, t.fragment = .thresh k items → 0 < k ∧ k ≤ items.length := by
  refine ⟨node, ?_⟩
  rintro ⟨assembled, below, inRange⟩
  obtain ⟨drafts, built, checked⟩ := exists_drafts below
  obtain ⟨allowed, _, _, spent, low⟩ := assemble_eq_ok.mp assembled
  have count : drafts.length = t.fragment.children.length :=
    (Traversal.length_of_mapM_eq_ok checked).symm
  have heights : drafts.map Draft.height = t.fragment.children.map (Budget.height ∘ budget) :=
    (map_eq_map_of_mapM_ok checked fun x member y answer => height_eq (built x member) answer).symm
  -- The same fragment over the drafts of its children is as high as the budget says.
  let draft : Draft κ δ := .node t.budget.height (t.fragment.withChildren drafts)
  have shape : draft.fragment = t.fragment.withChildren drafts := Condition.fragment_node _ _
  have children : draft.fragment.children = drafts := by
    rw [shape, Fragment.children_withChildren _ count]
  have high : draft.height = draft.fragment.levels Draft.height := by
    rw [shape, Fragment.levels_withChildren _ heights, ← Fragment.levels_map,
      ← Budget.height_ofFragment]
    exact (Condition.note_node _ _).trans (congrArg Budget.height spent)
  have below : draft.height < heightLimit := by rwa [Draft.height, Condition.note_node]
  refine ⟨draft, ?_, ?_⟩
  · rw [← children] at built
    cases root : draft.fragment with
    | leaf l =>
      rw [root] at shape high
      have leaf : t.fragment = .leaf l := by
        cases source : t.fragment <;> rw [source] at shape <;> cases shape
        rfl
      rw [leaf] at allowed
      refine .leaf (l := l) ?_
      have same : draft = .leaf 0 l := by
        rw [← Condition.node_note_fragment draft, root]
        exact congrArg (Condition.leaf · l) high
      rw [same, Draft.ofLeaf, bind_eq_ok]
      exact ⟨(), mapError_eq_ok.mpr ((Context.checkFragment_leaf context l).trans allowed), rfl⟩
    | wrap w x =>
      rw [root] at high built
      exact .wrap (built x (by simp [Fragment.children]))
        (Draft.compound_eq_ok.mpr ⟨root, high, below⟩)
    | pair op x y =>
      rw [root] at high built
      exact .pair (built x (by simp [Fragment.children])) (built y (by simp [Fragment.children]))
        (Draft.compound_eq_ok.mpr ⟨root, high, below⟩)
    | andOr x y z =>
      rw [root] at high built
      exact .andOr (built x (by simp [Fragment.children])) (built y (by simp [Fragment.children]))
        (built z (by simp [Fragment.children])) (Draft.compound_eq_ok.mpr ⟨root, high, below⟩)
    | thresh k items =>
      rw [root] at high built children
      have source : t.fragment = .thresh k t.children := by
        rw [root] at shape
        cases source : t.fragment <;> rw [source] at shape <;> cases shape
        rw [Condition.children, source]
        rfl
      obtain ⟨positive, bounded⟩ := inRange k t.children source
      have same : items.length = t.children.length := by
        rw [show items = drafts from children, count]
        rfl
      exact .thresh built (Draft.thresh_eq_ok.mpr
        ⟨Draft.compound_eq_ok.mpr ⟨root, high, below⟩, positive, same ▸ bounded⟩)
  · rw [Draft.check_eq, Condition.children, children, checked, bind_eq_ok]
    refine ⟨t.children, rfl, ?_⟩
    rw [shape, Fragment.withChildren_withChildren]
    exact (congrArg (assemble context) t.fragment.withChildren_children).trans assembled

end Validated

end Typed

namespace Soundness

variable {x y z s : Soundness}

theorem requireBase_eq_ok {expected : Base} {u : Unit} :
    requireBase expected x = .ok u ↔ x.base = expected := by
  simp only [requireBase]
  split <;> simp [*]

theorem alt_eq_ok : x.alt = .ok s ↔ x.base = .B ∧ { x with base := .W, input := .any } = s := by
  simp only [alt, bind_eq_ok, requireBase_eq_ok, pure_eq_ok, exists_const]

theorem swap_eq_ok : x.swap = .ok s ↔
    x.base = .B ∧ x.input.isOne = true ∧ { x with base := .W, input := .any } = s := by
  simp only [swap, bind_eq_ok, requireBase_eq_ok, exists_const]
  split <;> simp [*, pure_eq_ok, throw_eq_ok]

theorem check_eq_ok : x.check = .ok s ↔ x.base = .K ∧ { x with base := .B, unit := true } = s := by
  simp only [check, bind_eq_ok, requireBase_eq_ok, pure_eq_ok, exists_const]

theorem dupIf_eq_ok : x.dupIf = .ok s ↔
    x.base = .V ∧ x.input = .zero ∧ ⟨.B, .oneNonzero, true, true⟩ = s := by
  simp only [dupIf, bind_eq_ok, requireBase_eq_ok, exists_const]
  split <;> simp [*, pure_eq_ok, throw_eq_ok]

theorem verify_eq_ok : x.verify = .ok s ↔
    x.base = .B ∧ { x with base := .V, dissatisfiable := false, unit := false } = s := by
  simp only [verify, bind_eq_ok, requireBase_eq_ok, pure_eq_ok, exists_const]

theorem nonzero_eq_ok : x.nonzero = .ok s ↔
    x.base = .B ∧ x.input.isNonzero = true ∧ { x with dissatisfiable := true } = s := by
  cases allowed : x.input.isNonzero <;>
    simp [nonzero, allowed, bind_eq_ok, throw_eq_ok, requireBase_eq_ok, fmap_eq_ok]

theorem zeroNotEqual_eq_ok : x.zeroNotEqual = .ok s ↔ x.base = .B ∧ { x with unit := true } = s := by
  simp only [zeroNotEqual, bind_eq_ok, requireBase_eq_ok, pure_eq_ok, exists_const]

/-- The base type that a rule gives to a pair of children, if the pair is listed. -/
theorem joinBase_eq_ok {accepted : List ((Base × Base) × Base)} {base : Base} :
    joinBase accepted x y = .ok base ↔ accepted.lookup (x.base, y.base) = some base := by
  simp only [joinBase]
  split <;> simp [*]

private theorem lookup_sum {a b base : Base} :
    List.lookup (a, b) [((Base.B, Base.W), Base.B)] = some base ↔ a = .B ∧ b = .W ∧ .B = base := by
  cases a <;> cases b <;> cases base <;> decide

private theorem lookup_andV {a b base : Base} :
    List.lookup (a, b) [((Base.V, Base.B), Base.B), ((.V, .K), .K), ((.V, .V), .V)] = some base ↔
      a = .V ∧ b ≠ .W ∧ b = base := by
  cases a <;> cases b <;> cases base <;> decide

private theorem lookup_orD {a b base : Base} :
    List.lookup (a, b) [((Base.B, Base.B), Base.B)] = some base ↔ a = .B ∧ b = .B ∧ .B = base := by
  cases a <;> cases b <;> cases base <;> decide

private theorem lookup_orC {a b base : Base} :
    List.lookup (a, b) [((Base.B, Base.V), Base.V)] = some base ↔ a = .B ∧ b = .V ∧ .V = base := by
  cases a <;> cases b <;> cases base <;> decide

private theorem lookup_orI {a b base : Base} :
    List.lookup (a, b) [((Base.B, Base.B), Base.B), ((.V, .V), .V), ((.K, .K), .K)] = some base ↔
      a = b ∧ b ≠ .W ∧ b = base := by
  cases a <;> cases b <;> cases base <;> decide

private theorem lookup_andOr {a b c base : Base} :
    List.lookup (a, b, c)
        [((Base.B, Base.B, Base.B), Base.B), ((.B, .K, .K), .K), ((.B, .V, .V), .V)] = some base ↔
      a = .B ∧ b = c ∧ c ≠ .W ∧ c = base := by
  cases a <;> cases b <;> cases c <;> cases base <;> decide

theorem andB_eq_ok : andB x y = .ok s ↔ x.base = .B ∧ y.base = .W ∧
    ⟨.B, x.input.sequence y.input, x.dissatisfiable && y.dissatisfiable, true⟩ = s := by
  simp [andB, fmap_eq_ok, joinBase_eq_ok, lookup_sum, and_assoc]

theorem andV_eq_ok : andV x y = .ok s ↔ x.base = .V ∧ y.base ≠ .W ∧
    ⟨y.base, x.input.sequence y.input, false, y.unit⟩ = s := by
  simp [andV, fmap_eq_ok, joinBase_eq_ok, lookup_andV, and_assoc]

/-- The input of an `or_b` over those of its children. -/
def orBInput : Input → Input → Input
  | .zero, .zero => .zero
  | .zero, right => if right.isOne then .one else .any
  | left, .zero => if left.isOne then .one else .any
  | _, _ => .any

theorem orB_eq_ok : orB x y = .ok s ↔ x.base = .B ∧ y.base = .W ∧
    x.dissatisfiable = true ∧ y.dissatisfiable = true ∧
    ⟨.B, orBInput x.input y.input, true, true⟩ = s := by
  cases left : x.dissatisfiable <;> cases right : y.dissatisfiable <;>
    simp [orB, left, right, bind_eq_ok, fmap_eq_ok, joinBase_eq_ok, lookup_sum, throw_eq_ok, and_assoc]
  exact fun _ _ => Iff.rfl

theorem requireDecider_eq_ok {u : Unit} :
    requireDecider x = .ok u ↔ x.dissatisfiable = true ∧ x.unit = true := by
  cases answers : x.dissatisfiable <;> cases one : x.unit <;>
    simp [requireDecider, answers, one, bind_eq_ok, throw_eq_ok, pure_eq_ok]

theorem orD_eq_ok : orD x y = .ok s ↔ x.dissatisfiable = true ∧ x.unit = true ∧
    x.base = .B ∧ y.base = .B ∧ ⟨.B, orInput x.input y.input, y.dissatisfiable, y.unit⟩ = s := by
  simp [orD, bind_eq_ok, fmap_eq_ok, requireDecider_eq_ok, joinBase_eq_ok, lookup_orD, and_assoc]

theorem orC_eq_ok : orC x y = .ok s ↔ x.dissatisfiable = true ∧ x.unit = true ∧
    x.base = .B ∧ y.base = .V ∧ ⟨.V, orInput x.input y.input, false, false⟩ = s := by
  simp [orC, bind_eq_ok, fmap_eq_ok, requireDecider_eq_ok, joinBase_eq_ok, lookup_orC, and_assoc]

/-- The input of an `or_i` over those of its children. -/
def orIInput : Input → Input → Input
  | .zero, .zero => .one
  | _, _ => .any

theorem orI_eq_ok : orI x y = .ok s ↔ x.base = y.base ∧ y.base ≠ .W ∧
    ⟨y.base, orIInput x.input y.input, x.dissatisfiable || y.dissatisfiable, x.unit && y.unit⟩ = s := by
  simp [orI, fmap_eq_ok, joinBase_eq_ok, lookup_orI, and_assoc]
  exact fun _ _ => Iff.rfl

/-- The input of an `andor` over those of its children. -/
def andOrInput : Input → Input → Input → Input
  | .zero, .zero, .zero => .zero
  | .zero, second, third => if second.isOne && third.isOne then .one else .any
  | first, .zero, .zero => if first.isOne then .one else .any
  | _, _, _ => .any

theorem andOr_eq_ok : andOr x y z = .ok s ↔ x.dissatisfiable = true ∧ x.unit = true ∧
    x.base = .B ∧ y.base = z.base ∧ z.base ≠ .W ∧
    ⟨z.base, andOrInput x.input y.input z.input, z.dissatisfiable, y.unit && z.unit⟩ = s := by
  simp only [andOr, bind_eq_ok, requireDecider_eq_ok]
  cases found : List.lookup (x.base, y.base, z.base)
      [((Base.B, Base.B, Base.B), Base.B), ((.B, .K, .K), .K), ((.B, .V, .V), .V)] with
  | none =>
    simp only [throw_eq_ok, bind_eq_ok, false_and, exists_false, and_false, false_iff]
    rintro ⟨_, _, first, same, stackLike, _⟩
    rw [lookup_andOr.mpr ⟨first, same, stackLike, rfl⟩] at found
    cases found
  | some base =>
    obtain ⟨first, same, stackLike, rfl⟩ := lookup_andOr.mp found
    constructor
    · rintro ⟨_, ⟨answers, one⟩, made⟩
      exact ⟨answers, one, first, same, stackLike, pure_eq_ok.mp made⟩
    · rintro ⟨answers, one, _, _, _, made⟩
      exact ⟨(), ⟨answers, one⟩, pure_eq_ok.mpr made⟩

theorem requireSummand_eq_ok {index : Nat} {u : Unit} :
    requireSummand index x = .ok u ↔
      x.base = (if index = 0 then .B else .W) ∧ x.unit = true ∧ x.dissatisfiable = true := by
  cases answers : x.dissatisfiable <;> cases one : x.unit <;>
    by_cases fits : x.base = if index = 0 then .B else .W <;>
    simp [requireSummand, answers, one, fits, bind_eq_ok, throw_eq_ok, pure_eq_ok]

/-- The input of a `thresh` over those of its children. -/
def thresholdInput (items : List Input) : Input :=
  match sumOf Input.count items with
  | 0 => .zero
  | 1 => .one
  | _ => .any

/-- The first child is a `B` and the others are `W`. -/
theorem threshold_eq_ok {first : Soundness} {rest : List Soundness} :
    threshold (first :: rest) = .ok s ↔ first.base = .B ∧ (∀ x ∈ rest, x.base = .W) ∧
      (∀ x ∈ first :: rest, x.unit = true ∧ x.dissatisfiable = true) ∧
      ⟨.B, thresholdInput ((first :: rest).map input), true, true⟩ = s := by
  have later (index : Nat) (items : List Soundness) (positive : 0 < index) :
      (∀ pair ∈ items.zipIdx index, pair.1.base = (if pair.2 = 0 then .B else .W) ∧
        pair.1.unit = true ∧ pair.1.dissatisfiable = true) ↔
      ∀ x ∈ items, x.base = .W ∧ x.unit = true ∧ x.dissatisfiable = true := by
    induction items generalizing index with
    | nil => simp
    | cons x others ih =>
      rw [List.zipIdx_cons, List.forall_mem_cons, List.forall_mem_cons,
        ih (index + 1) (Nat.succ_pos index), if_neg (Nat.ne_of_gt positive)]
  simp only [threshold, bind_eq_ok, pure_eq_ok, exists_const, forM_eq_ok, requireSummand_eq_ok,
    List.zipIdx_cons, List.forall_mem_cons, Nat.zero_add, later 1 rest Nat.one_pos, if_true,
    thresholdInput, sumOf_map]
  constructor
  · rintro ⟨⟨head, others⟩, made⟩
    exact ⟨head.1, fun x member => (others x member).1,
      ⟨head.2, fun x member => (others x member).2⟩, made⟩
  · rintro ⟨base, bases, ⟨head, others⟩, made⟩
    exact ⟨⟨⟨base, head⟩, fun x member => ⟨bases x member, others x member⟩⟩,
      made⟩

/-- The soundness of a wrapped fragment. -/
def wrap (wrapper : Wrapper) (x : Soundness) : Except TypeFault Soundness :=
  match wrapper with
  | .alt => x.alt
  | .swap => x.swap
  | .check => x.check
  | .dupIf => x.dupIf
  | .verify => x.verify
  | .nonzero => x.nonzero
  | .zeroNotEqual => x.zeroNotEqual

/-- The soundness of two joined fragments. -/
def pair (op : Connective) (x y : Soundness) : Except TypeFault Soundness :=
  match op with
  | .andV => andV x y
  | .andB => andB x y
  | .orB => orB x y
  | .orD => orD x y
  | .orC => orC x y
  | .orI => orI x y

/-! Only a sequence takes an element of which it is said not to be zero. -/

theorem isNonzero_orBInput (x y : Input) : (orBInput x y).isNonzero = false := by
  cases x <;> cases y <;> rfl

theorem isNonzero_orInput (x y : Input) : (orInput x y).isNonzero = false := by
  cases x <;> cases y <;> rfl

theorem isNonzero_orIInput (x y : Input) : (orIInput x y).isNonzero = false := by
  cases x <;> cases y <;> rfl

theorem isNonzero_andOrInput (x y z : Input) : (andOrInput x y z).isNonzero = false := by
  cases x <;> cases y <;> cases z <;> rfl

theorem isNonzero_thresholdInput (items : List Input) : (thresholdInput items).isNonzero = false := by
  unfold thresholdInput
  split <;> rfl

end Soundness

namespace Malleability

/-- The malleability of a wrapped fragment. -/
def wrap (wrapper : Wrapper) (x : Malleability) : Malleability :=
  match wrapper with
  | .dupIf => x.dupIf
  | .verify => x.verify
  | .nonzero => x.nonzero
  | .alt | .swap | .check | .zeroNotEqual => x

/-- The malleability of two joined fragments. -/
def pair (op : Connective) (x y : Malleability) : Malleability :=
  match op with
  | .andV => andV x y
  | .andB => andB x y
  | .orB => orB x y
  | .orD => orD x y
  | .orC => orC x y
  | .orI => orI x y

end Malleability

namespace Typed.Validated

variable {κ δ : Type} [KeyLike κ] [DigestLike δ] {context : Context} {note : Attributes}

theorem leaf {l : Leaf κ δ} (valid : Validated context (.leaf note l)) :
    context.checkFragment (.leaf l : Fragment κ δ (Typed κ δ)) = .ok () ∧
      FragmentType.ofLeaf l = note.type :=
  ⟨valid.allowed, Except.ok.inj valid.typed⟩

theorem wrap {w : Wrapper} {x : Typed κ δ} (valid : Validated context (.wrap note w x)) :
    Validated context x ∧ FragmentType.wrap w x.type = .ok note.type :=
  ⟨valid.child (by simp), valid.typed⟩

theorem pair {op : Connective} {x y : Typed κ δ} (valid : Validated context (.pair note op x y)) :
    Validated context x ∧ Validated context y ∧
      FragmentType.pair op x.type y.type = .ok note.type :=
  ⟨valid.child (by simp), valid.child (by simp), valid.typed⟩

theorem andOr {x y z : Typed κ δ} (valid : Validated context (.andOr note x y z)) :
    Validated context x ∧ Validated context y ∧ Validated context z ∧
      FragmentType.andOr x.type y.type z.type = .ok note.type :=
  ⟨valid.child (by simp), valid.child (by simp), valid.child (by simp), valid.typed⟩

theorem thresh {k : Nat} {items : List (Typed κ δ)}
    (valid : Validated context (.thresh note k items)) :
    (∀ x ∈ items, Validated context x) ∧ 0 < k ∧ k ≤ items.length ∧
      FragmentType.threshold k (items.map type) = .ok note.type := by
  obtain ⟨_, below, inRange⟩ := valid.node
  obtain ⟨positive, bounded⟩ := inRange k items rfl
  exact ⟨below, positive, bounded, valid.typed⟩

/-! Soundness is computed from that of the children alone. -/

theorem soundness_wrap {w : Wrapper} {x : Typed κ δ} (valid : Validated context (.wrap note w x)) :
    Soundness.wrap w x.type.soundness = .ok note.type.soundness := by
  have typed := valid.wrap.2
  cases w <;>
  · obtain ⟨s, made, same⟩ := map_eq_ok.mp typed
    rw [← same]
    exact made

theorem soundness_pair {op : Connective} {x y : Typed κ δ} (valid : Validated context (.pair note op x y)) :
    Soundness.pair op x.type.soundness y.type.soundness = .ok note.type.soundness := by
  have typed := valid.pair.2.2
  cases op <;>
  · obtain ⟨s, made, same⟩ := map_eq_ok.mp typed
    rw [← same]
    exact made

theorem soundness_andOr {x y z : Typed κ δ} (valid : Validated context (.andOr note x y z)) :
    Soundness.andOr x.type.soundness y.type.soundness z.type.soundness = .ok note.type.soundness := by
  obtain ⟨s, made, same⟩ := map_eq_ok.mp valid.andOr.2.2.2
  rw [← same]
  exact made

theorem soundness_thresh {k : Nat} {items : List (Typed κ δ)}
    (valid : Validated context (.thresh note k items)) :
    Soundness.threshold ((items.map type).map FragmentType.soundness) = .ok note.type.soundness := by
  obtain ⟨s, made, same⟩ := map_eq_ok.mp valid.thresh.2.2.2
  rw [← same]
  exact made

/-! So is malleability, whatever the soundness. -/

theorem malleability_leaf {l : Leaf κ δ} (valid : Validated context (.leaf note l)) :
    note.type.malleability = (FragmentType.ofLeaf l).malleability :=
  congrArg FragmentType.malleability valid.leaf.2.symm

theorem malleability_wrap {w : Wrapper} {x : Typed κ δ}
    (valid : Validated context (.wrap note w x)) :
    note.type.malleability = .wrap w x.type.malleability := by
  have typed := valid.wrap.2
  cases w <;>
  · simp only [FragmentType.wrap, map_eq_ok] at typed
    obtain ⟨s, _, same⟩ := typed
    exact (congrArg FragmentType.malleability same).symm

theorem malleability_pair {op : Connective} {x y : Typed κ δ}
    (valid : Validated context (.pair note op x y)) :
    note.type.malleability = .pair op x.type.malleability y.type.malleability := by
  have typed := valid.pair.2.2
  cases op <;>
  · simp only [FragmentType.pair, map_eq_ok] at typed
    obtain ⟨s, _, same⟩ := typed
    exact (congrArg FragmentType.malleability same).symm

theorem malleability_andOr {x y z : Typed κ δ} (valid : Validated context (.andOr note x y z)) :
    note.type.malleability =
      .andOr x.type.malleability y.type.malleability z.type.malleability := by
  have typed := valid.andOr.2.2.2
  simp only [FragmentType.andOr, map_eq_ok] at typed
  obtain ⟨s, _, same⟩ := typed
  exact (congrArg FragmentType.malleability same).symm

theorem malleability_thresh {k : Nat} {items : List (Typed κ δ)}
    (valid : Validated context (.thresh note k items)) :
    note.type.malleability = .threshold k (items.map fun x => x.type.malleability) := by
  have typed := valid.thresh.2.2.2
  simp only [FragmentType.threshold, map_eq_ok] at typed
  obtain ⟨s, _, same⟩ := typed
  rw [← same, List.map_map]
  rfl

/-! So is whether a condition can be dissatisfied. A child that is dissatisfied to satisfy the whole
must be one that can be. -/

theorem dissatisfiable_wrap {w : Wrapper} {x : Typed κ δ}
    (valid : Validated context (.wrap note w x)) :
    note.type.soundness.dissatisfiable = match w with
      | .dupIf | .nonzero => true
      | .verify => false
      | .alt | .swap | .check | .zeroNotEqual => x.type.soundness.dissatisfiable := by
  have made := valid.soundness_wrap
  cases w <;>
    simp only [Soundness.wrap, Soundness.alt_eq_ok, Soundness.swap_eq_ok, Soundness.check_eq_ok,
      Soundness.dupIf_eq_ok, Soundness.verify_eq_ok, Soundness.nonzero_eq_ok,
      Soundness.zeroNotEqual_eq_ok] at made <;>
    grind

theorem dissatisfiable_pair {op : Connective} {x y : Typed κ δ}
    (valid : Validated context (.pair note op x y)) :
    note.type.soundness.dissatisfiable = match op with
      | .andV | .orC => false
      | .andB => x.type.soundness.dissatisfiable && y.type.soundness.dissatisfiable
      | .orB => true
      | .orD => y.type.soundness.dissatisfiable
      | .orI => x.type.soundness.dissatisfiable || y.type.soundness.dissatisfiable := by
  have made := valid.soundness_pair
  cases op <;>
    simp only [Soundness.pair, Soundness.andV_eq_ok, Soundness.andB_eq_ok, Soundness.orB_eq_ok,
      Soundness.orD_eq_ok, Soundness.orC_eq_ok, Soundness.orI_eq_ok] at made <;>
    grind

theorem dissatisfiable_of_pair {op : Connective} {x y : Typed κ δ}
    (valid : Validated context (.pair note op x y)) :
    (op ∈ [.orB, .orD, .orC] → x.type.soundness.dissatisfiable = true) ∧
      (op = .orB → y.type.soundness.dissatisfiable = true) := by
  have made := valid.soundness_pair
  cases op <;>
    simp only [Soundness.pair, Soundness.andV_eq_ok, Soundness.andB_eq_ok, Soundness.orB_eq_ok,
      Soundness.orD_eq_ok, Soundness.orC_eq_ok, Soundness.orI_eq_ok] at made <;>
    grind

theorem dissatisfiable_andOr {x y z : Typed κ δ} (valid : Validated context (.andOr note x y z)) :
    x.type.soundness.dissatisfiable = true ∧
      note.type.soundness.dissatisfiable = z.type.soundness.dissatisfiable := by
  have made := Soundness.andOr_eq_ok.mp valid.soundness_andOr
  grind

theorem dissatisfiable_thresh {k : Nat} {items : List (Typed κ δ)}
    (valid : Validated context (.thresh note k items)) :
    (∀ x ∈ items, x.type.soundness.dissatisfiable = true) ∧
      note.type.soundness.dissatisfiable = true := by
  obtain ⟨_, positive, bounded, _⟩ := valid.thresh
  obtain ⟨first, rest, rfl⟩ := List.exists_cons_of_length_pos (Nat.lt_of_lt_of_le positive bounded)
  obtain ⟨_, _, each, same⟩ := Soundness.threshold_eq_ok.mp valid.soundness_thresh
  simp only [List.forall_mem_cons, List.forall_mem_map] at each ⊢
  exact ⟨⟨each.1.2, fun x member => (each.2 x member).2⟩, same ▸ rfl⟩

/-! Likewise the input, which is found in a table for each rule. -/

theorem input_wrap {w : Wrapper} {x : Typed κ δ} (valid : Validated context (.wrap note w x)) :
    note.type.soundness.input = match w with
      | .alt | .swap => .any
      | .dupIf => .oneNonzero
      | .check | .verify | .nonzero | .zeroNotEqual => x.type.soundness.input := by
  have made := valid.soundness_wrap
  cases w <;>
    simp only [Soundness.wrap, Soundness.alt_eq_ok, Soundness.swap_eq_ok, Soundness.check_eq_ok,
      Soundness.dupIf_eq_ok, Soundness.verify_eq_ok, Soundness.nonzero_eq_ok,
      Soundness.zeroNotEqual_eq_ok] at made <;>
    grind

theorem input_of_wrap {w : Wrapper} {x : Typed κ δ} (valid : Validated context (.wrap note w x)) :
    (w = .dupIf → x.type.soundness.input = .zero) ∧
      (w = .nonzero → x.type.soundness.input.isNonzero = true) := by
  have made := valid.soundness_wrap
  cases w <;>
    simp only [Soundness.wrap, Soundness.alt_eq_ok, Soundness.swap_eq_ok, Soundness.check_eq_ok,
      Soundness.dupIf_eq_ok, Soundness.verify_eq_ok, Soundness.nonzero_eq_ok,
      Soundness.zeroNotEqual_eq_ok] at made <;>
    grind

theorem input_pair {op : Connective} {x y : Typed κ δ} (valid : Validated context (.pair note op x y)) :
    note.type.soundness.input = (match op with
      | .andV | .andB => Input.sequence
      | .orB => Soundness.orBInput
      | .orD | .orC => Soundness.orInput
      | .orI => Soundness.orIInput) x.type.soundness.input y.type.soundness.input := by
  have made := valid.soundness_pair
  cases op <;>
    simp only [Soundness.pair, Soundness.andV_eq_ok, Soundness.andB_eq_ok, Soundness.orB_eq_ok,
      Soundness.orD_eq_ok, Soundness.orC_eq_ok, Soundness.orI_eq_ok] at made <;>
    grind

theorem input_andOr {x y z : Typed κ δ} (valid : Validated context (.andOr note x y z)) :
    note.type.soundness.input =
      Soundness.andOrInput x.type.soundness.input y.type.soundness.input z.type.soundness.input := by
  have made := Soundness.andOr_eq_ok.mp valid.soundness_andOr
  grind

theorem input_thresh {k : Nat} {items : List (Typed κ δ)} (valid : Validated context (.thresh note k items)) :
    note.type.soundness.input = Soundness.thresholdInput (items.map fun x => x.type.soundness.input) := by
  obtain ⟨_, positive, bounded, _⟩ := valid.thresh
  obtain ⟨first, rest, rfl⟩ := List.exists_cons_of_length_pos (Nat.lt_of_lt_of_le positive bounded)
  obtain ⟨_, _, _, same⟩ := Soundness.threshold_eq_ok.mp valid.soundness_thresh
  rw [← same]
  simp [Function.comp_def]

/-- A fragment over validated conditions is validated if its context allows it, its children fit, it
is not too high, and a threshold is in range. -/
theorem of_fragment (fragment : Fragment κ δ (Typed κ δ)) {type : FragmentType}
    (allowed : context.checkFragment fragment = .ok ())
    (below : ∀ x ∈ fragment.children, Validated context x)
    (typed : FragmentType.ofFragment (fragment.map Typed.type) = .ok type)
    (low : fragment.levels (Budget.height ∘ budget) < heightLimit)
    (inRange : ∀ k items, fragment = .thresh k items → 0 < k ∧ k ≤ items.length) :
    Validated context
      (.node ⟨type, Budget.ofFragment context (fragment.map budget)⟩ fragment) := by
  have shape := Condition.fragment_node
    (⟨type, Budget.ofFragment context (fragment.map budget)⟩ : Attributes) fragment
  refine iff_node.mpr ⟨?_, ?_, ?_⟩
  · rw [shape, assemble_eq_ok, shape, Typed.type, budget, Condition.note_node]
    refine ⟨allowed, rfl, typed, rfl, ?_⟩
    rwa [Budget.height_ofFragment, Fragment.levels_map]
  · rwa [Condition.children, shape]
  · rwa [shape]

end Typed.Validated

namespace Typed

variable {κ δ : Type} [KeyLike κ] [DigestLike δ] {context : Context}

/-- The condition `pk(key)` with its attributes, the smallest one that needs a signature. -/
def pk (context : Context) (key : κ) : Typed κ δ :=
  let leaf : Typed κ δ :=
    .leaf ⟨.key, Budget.ofFragment context (.leaf (.key key) : Fragment κ δ _)⟩ (.key key)
  .wrap ⟨⟨{ Soundness.key with base := .B }, .key⟩,
    Budget.ofFragment context (.wrap .check leaf.budget : Fragment κ δ _)⟩ .check leaf

theorem validated_pk {key : κ} (allowed : context.checkKey key = .ok ()) :
    Validated context (pk context key : Typed κ δ) := by
  have leaf : Validated context _ := Validated.of_fragment
    (.leaf (.key key) : Fragment κ δ (Typed κ δ)) allowed nofun rfl
    (show 0 < heightLimit by decide) nofun
  refine Validated.of_fragment (.wrap .check _ : Fragment κ δ (Typed κ δ)) rfl (fun x member => ?_)
    rfl (show 1 < heightLimit by decide) nofun
  obtain rfl := List.mem_singleton.mp member
  exact leaf

/-- A fragment over typed conditions, with the attributes that follow from theirs. -/
def ofFragment (context : Context) (fragment : Fragment κ δ (Typed κ δ)) : Typed κ δ :=
  .node ⟨(FragmentType.ofFragment (fragment.map type)).toOption.getD default,
    Budget.ofFragment context (fragment.map budget)⟩ fragment

@[simp] theorem all_ofFragment {P : Fragment κ δ (Typed κ δ) → Prop}
    (fragment : Fragment κ δ (Typed κ δ)) :
    (ofFragment context fragment).All P ↔ P fragment ∧ ∀ x ∈ fragment.children, x.All P := by
  rw [Condition.all_iff, Condition.children, ofFragment, Condition.fragment_node]

@[simp] theorem keys_ofFragment (fragment : Fragment κ δ (Typed κ δ)) :
    (ofFragment context fragment).keys =
      (match fragment with | .leaf l => l.keys | _ => []) ++
        fragment.children.flatMap Condition.keys := by
  rw [Condition.keys_eq, Condition.children, ofFragment, Condition.fragment_node]
  cases fragment <;> rfl

theorem validated_of_typed (fragment : Fragment κ δ (Typed κ δ)) {fitting : FragmentType}
    (allowed : context.checkFragment fragment = .ok ()) (below : ∀ x ∈ fragment.children, Validated context x)
    (typed : FragmentType.ofFragment (fragment.map type) = .ok fitting)
    (low : fragment.levels (Budget.height ∘ budget) < heightLimit)
    (inRange : ∀ k items, fragment = .thresh k items → 0 < k ∧ k ≤ items.length) :
    Validated context (ofFragment context fragment) := by
  rw [ofFragment, typed]
  exact Validated.of_fragment fragment allowed below typed low inRange

/-- Whether a fragment fits on top of its children, which is all that is left to check of a tree
whose subtrees are validated. -/
def composes (context : Context) (fragment : Fragment κ δ (Typed κ δ)) : Bool :=
  (assemble context fragment).isOk && match fragment with
    | .thresh k items => decide (0 < k ∧ k ≤ items.length)
    | _ => true

theorem validated_ofFragment {fragment : Fragment κ δ (Typed κ δ)}
    (fits : composes context fragment = true) (below : ∀ x ∈ fragment.children, Validated context x) :
    Validated context (ofFragment context fragment) := by
  obtain ⟨made, inRange⟩ := Bool.and_eq_true_iff.mp fits
  cases success : assemble context fragment with
  | error error => simp [success, Except.isOk, Except.toBool] at made
  | ok t =>
    obtain ⟨allowed, shape, typed, spent, low⟩ := assemble_eq_ok.mp success
    refine validated_of_typed fragment allowed below typed ?_ ?_
    · rwa [← Fragment.levels_map, ← Budget.height_ofFragment, ← spent]
    · rintro k items rfl
      exact of_decide_eq_true inRange

/-! ## Two of three

A condition with a threshold, a hashlock and a choice, at which the statements about all conditions can be
looked at.
-/

/-- The key with a small x coordinate. -/
def pointOfByte (x : UInt8) : PointKey :=
  ⟨false, (Vector.replicate 31 0).push x⟩

/-- One of two keys. -/
def firstOrSecond : Threshold PointKey multiCap where
  k := 1
  items := [pointOfByte 1, pointOfByte 2]
  k_pos := Nat.one_pos
  k_le := by decide
  capped := by decide +kernel

/-- A secret of 32 bytes. -/
def secretOfOnes : Secret := Vector.replicate 32 1

/-- The digest of the secret. -/
def digestOfOnes : Digest where
  kind := .sha256
  bytes := [0x72, 0xcd, 0x6e, 0x84, 0x22, 0xc4, 0x07, 0xfb, 0x6d, 0x09, 0x86, 0x90, 0xf1, 0x13, 0x0b,
    0x7d, 0xed, 0x7e, 0xc2, 0xf7, 0xf5, 0xe1, 0xd3, 0x0b, 0xd9, 0xd5, 0x21, 0xf0, 0x15, 0x36, 0x37, 0x93]
  width_eq := rfl

theorem hash_secretOfOnes : HashKind.sha256.hash secretOfOnes.toList = digestOfOnes.bytes := by
  decide +kernel

/-- A key together with a secret, or nothing: `or_i(and_v(v:pk(D),sha256(…)),0)`. It is dissatisfied
through its `0`. -/
def keyWithSecret : Typed PointKey Digest :=
  ofFragment .segwit (.pair .orI
    (ofFragment .segwit (.pair .andV
      (ofFragment .segwit (.wrap .verify (pk .segwit (pointOfByte 4))))
      (ofFragment .segwit (.leaf (.digest digestOfOnes)))))
    (ofFragment .segwit (.leaf .zero)))

/-- Two of one of two keys, a third key, and a fourth one with a secret:
`thresh(2,multi(1,A,B),s:pk(C),a:or_i(…,0))`. -/
def twoOfThree : Typed PointKey Digest :=
  ofFragment .segwit (.thresh 2 [ofFragment .segwit (.leaf (.multi firstOrSecond)),
    ofFragment .segwit (.wrap .swap (pk .segwit (pointOfByte 3))),
    ofFragment .segwit (.wrap .alt keyWithSecret)])

theorem validated_twoOfThree : Validated .segwit twoOfThree := by
  have pk (x : UInt8) : Validated .segwit (pk .segwit (pointOfByte x) : Typed PointKey Digest) :=
    validated_pk rfl
  have composed {fragment : Fragment PointKey Digest (Typed PointKey Digest)}
      (fits : composes .segwit fragment = true)
      (below : ∀ x ∈ fragment.children, Validated .segwit x) := validated_ofFragment fits below
  have alt : Validated .segwit (ofFragment .segwit (.wrap .alt keyWithSecret)) := by
    refine composed rfl (List.forall_mem_singleton.mpr (composed rfl (List.forall_mem_cons.mpr
      ⟨?_, List.forall_mem_singleton.mpr (composed rfl nofun)⟩)))
    exact composed rfl (List.forall_mem_cons.mpr ⟨composed rfl (List.forall_mem_singleton.mpr (pk 4)),
      List.forall_mem_singleton.mpr (composed rfl nofun)⟩)
  exact composed rfl (List.forall_mem_cons.mpr ⟨composed rfl nofun, List.forall_mem_cons.mpr
    ⟨composed rfl (List.forall_mem_singleton.mpr (pk 3)), List.forall_mem_singleton.mpr alt⟩⟩)

theorem keys_twoOfThree : twoOfThree.keys = List.map pointOfByte [1, 2, 3, 4] := by
  simp [twoOfThree, keyWithSecret, pk, Leaf.keys, firstOrSecond, Fragment.children]

theorem countsBelow_twoOfThree : twoOfThree.CountsBelow (2 ^ 39) := by
  simp [twoOfThree, keyWithSecret, pk, ofFragment, Condition.node]

end Typed

end LockScript
