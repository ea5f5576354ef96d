import LockScript.Proofs.Elaboration

/-! # What the constructors guarantee

Drafts come from constructors that each test only their own arguments. Whatever the order in which
they are called, every subtree of the result knows its height, stands below the limit, and has a
root that its context allows and whose numbers are in range. The check of such a draft can therefore
fail for its types alone, and the heights of budgets are those of drafts.
-/

namespace LockScript

theorem Fragment.levels_congr {κ δ σ : Type} {f g : σ → Nat} {fragment : Fragment κ δ σ}
    (same : ∀ x ∈ fragment.children, f x = g x) : fragment.levels f = fragment.levels g := by
  have children : fragment.children.map f = fragment.children.map g := List.map_congr_left same
  cases fragment with
  | leaf l => rfl
  | _ => exact congrArg (fun heights => heights.foldr max 0 + 1) children

namespace Condition

variable {κ δ α : Type}

mutual

/-- The height of a condition, by recursion; a leaf has height zero. -/
def depth : Condition κ δ α → Nat
  | leaf _ _ => 0
  | wrap _ _ x => depth x + 1
  | pair _ _ x y => max (depth x) (depth y) + 1
  | andOr _ x y z => max (depth x) (max (depth y) (depth z)) + 1
  | thresh _ _ items => deepest items + 1

/-- The height of the highest of listed conditions. -/
def deepest : List (Condition κ δ α) → Nat
  | [] => 0
  | x :: rest => max (depth x) (deepest rest)

end

theorem deepest_eq_foldr (items : List (Condition κ δ α)) :
    deepest items = (items.map depth).foldr max 0 := by
  induction items with
  | nil => rfl
  | cons x rest ih => rw [deepest, ih, List.map_cons, List.foldr_cons]

theorem depth_eq_levels (t : Condition κ δ α) : t.depth = t.fragment.levels depth := by
  cases t <;> simp [depth, deepest_eq_foldr, fragment, Fragment.levels, Fragment.children]

/-- Inferred budgets know the height of their condition. -/
theorem height_inferBudget [KeyLike κ] [DigestLike δ] (context : Context) (t : Condition κ δ α) :
    (t.inferBudget context).height = t.depth := by
  induction t using induct_children with
  | node t ih =>
    rw [inferBudget_eq, Budget.height_ofFragment, Fragment.levels_map, depth_eq_levels]
    exact Fragment.levels_congr ih

end Condition

namespace Fragment

variable {κ δ σ : Type} [KeyLike κ]

/-- The arguments of a fragment are in range: its keys are allowed, it is a multisignature of the
scheme of its context, its lock can be enforced, and `1 ≤ k ≤ n` with `n` under its cap. -/
def InRange (context : Context) : Fragment κ δ σ → Prop
  | leaf (.key k) | leaf (.keyHash k) => context.checkKey k = .ok ()
  | leaf (.after lock) => 1 ≤ lock.value ∧ lock.value ≤ 0x80000000
  | leaf (.older lock) => 1 ≤ lock.value ∧ lock.value < 0x80000000
  | leaf (.multi ks) => context ≠ .tapscript ∧ (∀ key ∈ ks.items, context.checkKey key = .ok ()) ∧
      1 ≤ ks.k ∧ ks.k ≤ ks.items.length ∧ ks.items.length ≤ 20
  | leaf (.multiA ks) => context = .tapscript ∧ (∀ key ∈ ks.items, context.checkKey key = .ok ()) ∧
      1 ≤ ks.k ∧ ks.k ≤ ks.items.length ∧ ks.items.length ≤ 125000
  | thresh k items => 1 ≤ k ∧ k ≤ items.length
  | leaf .one | leaf .zero | leaf (.digest _) | wrap _ _ | pair _ _ _ | andOr _ _ _ => True

theorem inRange_leaf {context : Context} {l : Leaf κ δ}
    (allowed : context.checkFragment (leaf l : Fragment κ δ σ) = .ok ()) :
    (leaf l : Fragment κ δ σ).InRange context := by
  cases l with
  | one | zero | digest _ => trivial
  | key k | keyHash k => exact allowed
  | after lock => exact ⟨lock.pos, lock.bounded⟩
  | older lock => exact ⟨lock.pos, lock.bounded⟩
  | multi ks =>
    simp only [Context.checkFragment] at allowed
    split at allowed
    next => cases allowed
    next scheme =>
      refine ⟨?_, forM_eq_ok.mp allowed, ks.k_pos, ks.k_le, ks.capped 20 rfl⟩
      rintro rfl
      exact scheme rfl
  | multiA ks =>
    simp only [Context.checkFragment] at allowed
    split at allowed
    next => cases allowed
    next scheme =>
      refine ⟨?_, forM_eq_ok.mp allowed, ks.k_pos, ks.k_le, ks.capped 125000 rfl⟩
      cases context with
      | tapscript => rfl
      | legacy | segwit | bare => exact absurd rfl scheme

end Fragment

namespace Draft

variable {κ δ : Type} [KeyLike κ]

/-- The drafts that any sequence of constructors can make. -/
inductive Constructed (context : Context) : Draft κ δ → Prop where
  | one : Constructed context one
  | zero : Constructed context zero
  | digest (d : δ) : Constructed context (digest d)
  | key {k : κ} {draft : Draft κ δ} (made : key context k = .ok draft) : Constructed context draft
  | keyHash {k : κ} {draft : Draft κ δ} (made : keyHash context k = .ok draft) :
    Constructed context draft
  | pk {k : κ} {draft : Draft κ δ} (made : pk context k = .ok draft) : Constructed context draft
  | pkh {k : κ} {draft : Draft κ δ} (made : pkh context k = .ok draft) : Constructed context draft
  | after {value : Nat} {draft : Draft κ δ} (made : after context value = .ok draft) :
    Constructed context draft
  | older {value : Nat} {draft : Draft κ δ} (made : older context value = .ok draft) :
    Constructed context draft
  | multi {k : Nat} {keys : List κ} {draft : Draft κ δ} (made : multi context k keys = .ok draft) :
    Constructed context draft
  | multiA {k : Nat} {keys : List κ} {draft : Draft κ δ}
    (made : multiA context k keys = .ok draft) : Constructed context draft
  | wrap {w : Wrapper} {x draft : Draft κ δ} (below : Constructed context x)
    (made : wrap w x = .ok draft) : Constructed context draft
  | t {x draft : Draft κ δ} (below : Constructed context x) (made : t x = .ok draft) :
    Constructed context draft
  | l {x draft : Draft κ δ} (below : Constructed context x) (made : l x = .ok draft) :
    Constructed context draft
  | u {x draft : Draft κ δ} (below : Constructed context x) (made : u x = .ok draft) :
    Constructed context draft
  | pair {op : Connective} {x y draft : Draft κ δ} (left : Constructed context x)
    (right : Constructed context y) (made : pair op x y = .ok draft) : Constructed context draft
  | andOr {x y z draft : Draft κ δ} (first : Constructed context x) (second : Constructed context y)
    (third : Constructed context z) (made : andOr x y z = .ok draft) : Constructed context draft
  | andN {x y draft : Draft κ δ} (left : Constructed context x) (right : Constructed context y)
    (made : andN x y = .ok draft) : Constructed context draft
  | thresh {k : Nat} {items : List (Draft κ δ)} {draft : Draft κ δ}
    (below : ∀ x ∈ items, Constructed context x) (made : thresh k items = .ok draft) :
    Constructed context draft

variable {context : Context}

/-- Every constructor is one of the basic ones or short for some of them. -/
theorem Constructed.built {draft : Draft κ δ} (made : Constructed context draft) :
    Built context draft := by
  induction made with
  | one => exact .one
  | zero => exact .zero
  | digest d => exact .digest d
  | key made | keyHash made => exact .leaf made
  | pk made | pkh made =>
    obtain ⟨_, leaf, made⟩ := bind_eq_ok.mp made
    exact .wrap (.leaf leaf) made
  | after made | older made | multi made | multiA made =>
    obtain ⟨_, _, made⟩ := bind_eq_ok.mp made
    exact .leaf made
  | wrap _ made below => exact .wrap below made
  | t _ made below => exact .pair below .one made
  | l _ made below => exact .pair .zero below made
  | u _ made below => exact .pair below .zero made
  | pair _ _ made left right => exact .pair left right made
  | andOr _ _ _ made first second third => exact .andOr first second third made
  | andN _ _ made left right => exact .andOr left right .zero made
  | thresh _ made below => exact .thresh below made

theorem Built.of_mem_preorder {draft x : Draft κ δ} (built : Built context draft)
    (member : x ∈ Traversal.preorder draft) : Built context x := by
  induction draft using Condition.induct_children with
  | node draft ih =>
    obtain rfl | ⟨child, below, member⟩ := (Condition.mem_preorder_iff draft x).mp member
    · exact built
    · exact ih child below (built.node.2.1 child below) member

theorem Built.height_eq_depth {draft : Draft κ δ} (built : Built context draft) :
    draft.height = draft.depth := by
  induction draft using Condition.induct_children with
  | node draft ih =>
    obtain ⟨high, below, -⟩ := built.node
    rw [high, Condition.depth_eq_levels]
    exact Fragment.levels_congr fun x member => ih x member (below x member)

theorem Built.height_lt {draft : Draft κ δ} (built : Built context draft) :
    draft.height < heightLimit := by
  cases built with
  | one | zero | digest _ => exact Nat.succ_pos 401
  | leaf allowed =>
    obtain ⟨_, _, made⟩ := bind_eq_ok.mp allowed
    cases made
    exact Nat.succ_pos 401
  | wrap _ low | pair _ _ low | andOr _ _ _ low => exact (compound_eq_ok.mp low).2.2
  | thresh _ inRange => exact (compound_eq_ok.mp (thresh_eq_ok.mp inRange).1).2.2

theorem Built.allowed {draft : Draft κ δ} (built : Built context draft) :
    context.checkFragment draft.fragment = .ok () := by
  cases built with
  | one | zero | digest _ => rfl
  | @leaf l _ allowed =>
    obtain ⟨_, passed, made⟩ := bind_eq_ok.mp allowed
    cases made
    rw [← mapError_eq_ok.mp passed]
    exact context.checkFragment_leaf l
  | wrap _ low | pair _ _ low | andOr _ _ _ low => rw [(compound_eq_ok.mp low).1]; rfl
  | thresh _ inRange => rw [(compound_eq_ok.mp (thresh_eq_ok.mp inRange).1).1]; rfl

theorem Built.inRange {draft : Draft κ δ} (built : Built context draft) :
    draft.fragment.InRange context := by
  cases shape : draft.fragment with
  | leaf l => exact Fragment.inRange_leaf (shape ▸ built.allowed)
  | thresh k items => exact built.node.2.2 k items shape
  | wrap _ _ | pair _ _ _ | andOr _ _ _ => trivial

variable [DigestLike δ]

/-- Built fragments are rejected for their types only. -/
theorem Built.rejection_eq_type {draft : Draft κ δ} (built : Built context draft)
    {error : CheckError} (rejected : draft.rejection context = some error) :
    ∃ fault, error = .type fault := by
  rw [Condition.rejection, built.allowed, Condition.height_inferBudget, ← built.height_eq_depth,
    if_pos built.height_lt] at rejected
  cases typed : draft.inferType with
  | error fault =>
    rw [typed] at rejected
    exact ⟨_, (Option.some.inj rejected).symm⟩
  | ok type =>
    rw [typed] at rejected
    cases rejected

/-- Whatever constructors a draft was made with, every subtree knows its height, which stays below
the limit, and has a root in range. So only types can make its check fail, and the budget of the
result knows the height of the draft. -/
theorem Constructed.invariant {draft : Draft κ δ} (made : Constructed context draft) :
    (∀ x ∈ Traversal.preorder draft,
      x.height = x.depth ∧ x.height < heightLimit ∧ x.fragment.InRange context) ∧
    (∀ error, draft.check context = .error error → ∃ fault, error = .type fault) ∧
    ∀ t, draft.check context = .ok t → t.budget.height = draft.height := by
  have built := made.built
  refine ⟨fun x member => ?_, fun error failed => ?_, fun t checked => ?_⟩
  · have below := built.of_mem_preorder member
    exact ⟨below.height_eq_depth, below.height_lt, below.inRange⟩
  · have first : (Traversal.nodesOf [draft]).findSome? (Condition.rejection context) = some error := by
      rw [findSome?_rejection_root, failed]
    obtain ⟨before, x, after, nodes, rejected, -⟩ := List.findSome?_eq_some_iff.mp first
    have member : x ∈ Traversal.nodesOf [draft] := by simp [nodes]
    obtain ⟨_, root, below⟩ := (Traversal.mem_nodesOf_iff [draft] x).mp member
    rw [List.mem_singleton.mp root] at below
    exact (built.of_mem_preorder below).rejection_eq_type rejected
  · exact Typed.Validated.height_eq built checked

/-- The draft `and_v(v:pk(A),older(144))`. -/
def agedKey : Draft KeyName Digest :=
  Condition.pair 3 .andV
    (Condition.wrap 2 .verify (Condition.wrap 1 .check (Condition.leaf 0 (.key ⟨"A"⟩))))
    (Condition.leaf 0 (.older ⟨144, by decide, by decide⟩))

theorem constructed_agedKey : agedKey.Constructed .segwit := by
  have key : Constructed .segwit
      (Condition.wrap 1 .check (Condition.leaf 0 (.key ⟨"A"⟩)) : Draft KeyName Digest) :=
    .pk (show pk .segwit ⟨"A"⟩ = .ok _ from rfl)
  have age : Constructed .segwit
      (Condition.leaf 0 (.older ⟨144, by decide, by decide⟩) : Draft KeyName Digest) :=
    .older (show older .segwit 144 = .ok _ from rfl)
  exact .pair (.wrap key (show wrap .verify _ = .ok _ from rfl)) age rfl

/-- Such a draft is checked with success, and the height of its budget is three. -/
theorem invariant_agedKey :
    agedKey.Constructed .segwit ∧ agedKey.depth = 3 ∧
      ∃ t, agedKey.check .segwit = .ok t ∧ t.budget.height = 3 := by
  have checked : ∃ t, agedKey.elaborate .segwit = .ok t := ⟨_, rfl⟩
  obtain ⟨t, checked⟩ := checked
  rw [← check_eq_elaborate] at checked
  exact ⟨constructed_agedKey, rfl, t, checked, constructed_agedKey.invariant.2.2 t checked⟩

end Draft

end LockScript
