import LockScript.Proofs.Comparison
import LockScript.Proofs.Construction
import LockScript.Satisfaction.Search

/-! # Attributes follow from fragments

A typed condition is put together from typed conditions, any of which may have been made long before
and may stand in several places, or it comes out of the check of a draft. Only the new root is looked
at, over what its children carry. Still every node carries what inference finds for its fragments, so
conditions that are made of the same fragments are the same, attributes and all, and whatever looks
at attributes treats conditions that compare as equal alike.
-/

namespace LockScript

namespace Condition

variable {κ δ α : Type} [KeyLike κ] [DigestLike δ] (context : Context)

/-- Putting a condition together again does not look at its notes. -/
@[simp] theorem elaborate_bare (t : Condition κ δ α) :
    t.bare.elaborate context = t.elaborate context := by
  induction t using induct with
  | leaf _ l => rfl
  | wrap _ w x ih => simp only [bare, elaborate, ih]
  | pair _ op x y ihX ihY => simp only [bare, elaborate, ihX, ihY]
  | andOr _ x y z ihX ihY ihZ => simp only [bare, elaborate, ihX, ihY, ihZ]
  | thresh _ k items ih =>
    have same : (items.map bare).mapM (elaborate context) = items.mapM (elaborate context) := by
      rw [List.mapM_map]
      exact mapM_congr_of_mem ih
    simp only [bare, elaborate, elaborateAll_eq_mapM, bareAll_eq_map, same]

end Condition

namespace Typed

variable {κ δ : Type} [KeyLike κ] [DigestLike δ] {context : Context}

/-- The typed conditions that can be made: a fragment over conditions made before, which may share
subtrees, or the result of a check. Thresholds are in range by themselves. -/
inductive Reachable (context : Context) : Typed κ δ → Prop where
  | assembled {fragment : Fragment κ δ (Typed κ δ)} {t : Typed κ δ}
    (below : ∀ x ∈ fragment.children, Reachable context x)
    (inRange : ∀ k items, fragment = .thresh k items → 0 < k ∧ k ≤ items.length)
    (made : assemble context fragment = .ok t) : Reachable context t
  | checked {draft : Draft κ δ} {t : Typed κ δ} (drafted : draft.Constructed context)
    (made : draft.check context = .ok t) : Reachable context t

/-- Putting typed conditions together makes nothing that the check of a draft does not. -/
theorem Reachable.validated {t : Typed κ δ} (made : Reachable context t) : Validated context t := by
  induction made with
  | @assembled fragment t below inRange made valid =>
    obtain ⟨-, shape, -⟩ := assemble_eq_ok.mp made
    refine Validated.iff_node.mpr ⟨shape ▸ made, ?_, shape ▸ inRange⟩
    rw [Condition.children, shape]
    exact valid
  | checked drafted made => exact ⟨_, drafted.built, made⟩

theorem Validated.reachable {t : Typed κ δ} (valid : Validated context t) : Reachable context t := by
  induction t using Condition.induct_children with
  | node t ih =>
    obtain ⟨made, below, inRange⟩ := valid.node
    exact .assembled (fun x member => ih x member (below x member)) inRange made

namespace Validated

variable {t u : Typed κ δ}

/-- Every node carries what inference finds for its fragments alone. -/
theorem inferred (valid : Validated context t) :
    t.bare.inferType = .ok t.type ∧ t.bare.inferBudget context = t.budget := by
  obtain ⟨draft, -, checked⟩ := valid
  obtain ⟨bare, typed, spent⟩ := Draft.inferred_of_check checked
  rw [bare, Condition.inferType_bare, Condition.inferBudget_bare]
  exact ⟨typed, spent⟩

theorem height_eq_depth (valid : Validated context t) : t.budget.height = t.depth := by
  rw [← valid.inferred.2, Condition.inferBudget_bare, Condition.height_inferBudget]

theorem height_lt (valid : Validated context t) : t.budget.height < heightLimit :=
  (assemble_eq_ok.mp valid.node.1).2.2.2.2

/-- A condition is what its fragments are put together to. -/
theorem elaborate_bare (valid : Validated context t) : t.bare.elaborate context = .ok t := by
  obtain ⟨draft, -, checked⟩ := valid
  rw [(Draft.inferred_of_check checked).1, Condition.elaborate_bare, ← Draft.check_eq_elaborate]
  exact checked

/-- Conditions that are made of the same fragments carry the same attributes everywhere. -/
theorem eq_of_bare (valid : Validated context t) (valid' : Validated context u)
    (same : t.bare = u.bare) : t = u := by
  have made := valid.elaborate_bare
  rw [same, valid'.elaborate_bare] at made
  exact (Except.ok.inj made).symm

theorem eq_of_beq [Std.LawfulEqOrd δ] (valid : Validated context t) (valid' : Validated context u)
    (apart : Separates t.keys u.keys) (same : (t == u) = true) : t = u :=
  valid.eq_of_bare valid' (Condition.bare_eq_of_order apart (Condition.beq_iff_order.mp same))

end Validated

/-- Every node of a condition that can be made carries what inference finds for its fragments alone,
and knows its height, which is at most 401. Conditions are compared without a look at attributes; yet
those that compare as equal have the same ones and the same texts, with types and without, and if
their keys are public keys, they have the same script and are satisfied alike. -/
theorem Reachable.implied_by_fragments :
    (∀ {κ δ : Type} [KeyLike κ] [DigestLike δ] {context : Context} {t : Typed κ δ},
      Reachable context t → ∀ x ∈ Traversal.preorder t,
        x.bare.inferType = .ok x.type ∧ x.bare.inferBudget context = x.budget ∧
          x.budget.height = x.depth ∧ x.depth ≤ 401) ∧
    (∀ {κ δ : Type} [KeyLike κ] [DigestLike δ] (t u : Typed κ δ), (t.bare == u.bare) = (t == u)) ∧
    (∀ {κ δ : Type} [KeyLike κ] [DigestLike δ] [Std.LawfulEqOrd δ] {context : Context}
      {t u : Typed κ δ}, Reachable context t → Reachable context u → Separates t.keys u.keys →
        (t == u) = true →
          t.type = u.type ∧ t.budget = u.budget ∧ t.text = u.text ∧
            t.taggedText Attributes.tag = u.taggedText Attributes.tag) ∧
    ∀ {κ : Type} [PublicKey κ] {context : Context} {t u : Typed κ Digest},
      Reachable context t → Reachable context u → Separates t.keys u.keys → (t == u) = true →
        t.script context = u.script context ∧
          ∀ policy material, t.satisfy context policy material = u.satisfy context policy material := by
  refine ⟨fun made x member => ?_, Condition.beq_bare, fun made made' apart same => ?_,
    fun made made' apart same => ?_⟩
  · have valid := made.validated.of_mem_preorder member
    refine ⟨valid.inferred.1, valid.inferred.2, valid.height_eq_depth, ?_⟩
    rw [← valid.height_eq_depth]
    exact Nat.le_of_lt_succ valid.height_lt
  · obtain rfl := made.validated.eq_of_beq made'.validated apart same
    exact ⟨rfl, rfl, rfl, rfl⟩
  · obtain rfl := made.validated.eq_of_beq made'.validated apart same
    exact ⟨rfl, fun policy material => rfl⟩

/-- The draft `and_v(v:pk(A),pk(A))`, which has `pk(A)` twice. -/
def signedTwice (key : PointKey) : Draft PointKey Digest :=
  let single : Draft PointKey Digest := Condition.wrap 1 .check (Condition.leaf 0 (.key key))
  Condition.pair 3 .andV (Condition.wrap 2 .verify single) single

/-- The same condition, put together from one `pk(A)` that stands in both places. -/
def sharedKey (key : PointKey) : Typed PointKey Digest :=
  ofFragment .segwit
    (.pair .andV (ofFragment .segwit (.wrap .verify (pk .segwit key))) (pk .segwit key))

/-- Checked or put together, the condition carries the same attributes and has the same script. -/
theorem implied_by_fragments_sharedKey :
    ∃ (key : PointKey) (t u : Typed PointKey Digest),
      (signedTwice key).Constructed .segwit ∧ (signedTwice key).check .segwit = .ok t ∧
        Reachable .segwit u ∧ u = sharedKey key ∧
        (∀ x ∈ u.children, x.bare.inferBudget .segwit = budget x ∧ x.depth ≤ 401) ∧
        (t == u) = true ∧ t.budget = u.budget ∧ t.script .segwit = u.script .segwit := by
  let key : PointKey := ⟨false, Vector.replicate 32 1⟩
  have single : Draft.Constructed .segwit
      (Condition.wrap 1 .check (Condition.leaf 0 (.key key)) : Draft PointKey Digest) :=
    .pk (show Draft.pk .segwit key = .ok _ from rfl)
  have drafted : (signedTwice key).Constructed .segwit :=
    .pair (.wrap single (show Draft.wrap .verify _ = .ok _ from rfl)) single rfl
  have checked : (signedTwice key).check .segwit = .ok (sharedKey key) := by
    rw [Draft.check_eq_elaborate]
    rfl
  have valid : Validated .segwit (pk .segwit key : Typed PointKey Digest) := validated_pk rfl
  have shared : Validated .segwit (sharedKey key) :=
    validated_ofFragment rfl (List.forall_mem_cons.mpr
      ⟨validated_ofFragment rfl (List.forall_mem_singleton.mpr valid),
        List.forall_mem_singleton.mpr valid⟩)
  have same : (sharedKey key == sharedKey key) = true := by decide +kernel
  have apart := Separates.of_lawful (sharedKey key).keys (sharedKey key).keys
  have implied := Reachable.implied_by_fragments
  have below (x : Typed PointKey Digest) (member : x ∈ (sharedKey key).children) :=
    implied.1 shared.reachable x
      ((Condition.mem_preorder_iff _ x).mpr (.inr ⟨x, member, Traversal.mem_preorder_self x⟩))
  exact ⟨key, _, _, drafted, checked, shared.reachable, rfl,
    fun x member => ⟨(below x member).2.1, (below x member).2.2.2⟩, same,
    (implied.2.2.1 (.checked drafted checked) shared.reachable apart same).2.1,
    (implied.2.2.2 (.checked drafted checked) shared.reachable apart same).1⟩

end Typed

end LockScript
