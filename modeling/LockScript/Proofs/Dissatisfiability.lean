import LockScript.Proofs.MixedLocks
import LockScript.Proofs.SatisfactionSize

/-! # Views of dissatisfiability

Whether a fragment can be dissatisfied is told four times, each time by rules of its own: by its type, by
the bound in its budget, by the combinations of locks that are kept for it, and by what a search finds.
All four agree on every node of a condition, though a search also puts together dissatisfactions that
the others deny. The bytes of what is found are within the bound. This is shown of the exact bound first; the
bound in words is the same as long as a word can count it.
-/

namespace LockScript

/-- Two witnesses are both reckoned with, one after the other. -/
theorem Reckoned.gives_below {m : Measure} {paths paths' : LockSet} {usage usage' : Option (Usage Nat)}
    {upper lower : Witness} (first : upper.Gives fun taken => Reckoned m .free paths usage (m.weigh taken))
    (second : lower.Gives fun taken => Reckoned m .free paths' usage' (m.weigh taken)) (shift : Nat) :
    (lower.below upper).Gives fun taken =>
      Reckoned m .free (paths.join paths') (Usage.followedBy? usage usage' shift) (m.weigh taken) := by
  refine (second.below first).mono ?_
  rintro _ ⟨above, below, rfl, left, right⟩
  rw [Measure.weigh_append]
  exact left.followedBy right rfl shift

namespace Typed.Validated

section Views

variable {κ δ : Type} [KeyLike κ] [DigestLike δ] {context : Context} {t : Typed κ δ}

/-! ## What can be dissatisfied -/

/-- What some choice answers with no may be dissatisfied by its type. -/
theorem dissatisfiable_of_requires (valid : Validated context t) {kinds : LockKinds}
    (chosen : t.Requires false kinds) : t.type.soundness.dissatisfiable = true := by
  induction t using Typed.induct generalizing kinds with
  | leaf note l =>
    rw [Condition.requires_leaf] at chosen
    change note.type.soundness.dissatisfiable = true
    rw [← valid.leaf.2]
    cases l with
    | one | after l | older l => cases chosen.1
    | zero | key k | keyHash k | digest d | multi ks | multiA ks => rfl
  | wrap note w x ih =>
    rw [Condition.requires_wrap] at chosen
    refine valid.dissatisfiable_wrap.trans ?_
    cases w with
    | alt | swap | check | zeroNotEqual => exact ih valid.wrap.1 chosen
    | dupIf | nonzero => rfl
    | verify => cases chosen.1
  | pair note op x y ihX ihY =>
    obtain ⟨validX, validY, _⟩ := valid.pair
    rw [Condition.requires_pair] at chosen
    refine valid.dissatisfiable_pair.trans ?_
    cases op with
    | andV | orC => cases chosen.1
    | andB =>
      obtain ⟨_, _, _, left, right⟩ := chosen
      exact Bool.and_eq_true_iff.mpr ⟨ihX validX left, ihY validY right⟩
    | orB => rfl
    | orD =>
      obtain ⟨yes, _⟩ | ⟨_, _, _, _, right⟩ := chosen
      · cases yes
      · exact ihY validY right
    | orI => exact Bool.or_eq_true_iff.mpr (chosen.imp (ihX validX) (ihY validY))
  | andOr note x y z _ _ ihZ =>
    obtain ⟨_, _, validZ, _⟩ := valid.andOr
    rw [Condition.requires_andOr] at chosen
    refine valid.dissatisfiable_andOr.2.trans ?_
    obtain ⟨yes, _⟩ | ⟨_, _, _, _, right⟩ := chosen
    · cases yes
    · exact ihZ validZ right
  | thresh note k items _ => exact valid.dissatisfiable_thresh.2

/-- A condition is dissatisfied without any lock or not at all. -/
theorem lockPaths_dissat (valid : Validated context t) :
    t.budget.lockPaths.dissat = if t.type.soundness.dissatisfiable then .free else .empty := by
  have represents := valid.lockPaths_represents false
  split
  next may =>
    refine represents.unique (LockSet.represents_free.congr fun kinds => ⟨?_, t.neverLocked kinds⟩)
    rintro rfl
    exact valid.requires_free may
  next none =>
    exact represents.unique (LockSet.represents_empty fun _ chosen =>
      none (valid.dissatisfiable_of_requires chosen))

theorem isSome_dissat_iff (valid : Validated context t) :
    t.budget.dissat.isSome = true ↔ t.type.soundness.dissatisfiable = true := by
  refine ⟨fun bounded => ?_, fun may => valid.covers.dissat ⟨.free, rfl, valid.allows_free may⟩⟩
  have inhabited : t.budget.lockPaths.dissat.isInhabited = true := by
    rw [valid.spent] at bounded ⊢
    exact Budget.isInhabited_ofFragment.2 bounded
  obtain ⟨kinds, found⟩ := LockSet.exists_of_isInhabited inhabited
  exact valid.dissatisfiable_of_requires ((valid.lockPaths_represents false kinds).mp found).1

end Views

section Search

variable {κ : Type} [PublicKey κ] [LawfulPublicKey κ] {context : Context} {search : Search κ}
  {t : Typed κ Digest}

/-! ## What is found -/

/-- What is found for a leaf to dissatisfy it does not depend on the material, so it is within the budget. -/
theorem gives_dissat_leaf (scheme : search.scheme = context.scheme) {l : Leaf κ Digest}
    (permitted : context.checkFragment (.leaf l : Fragment κ Digest (Typed κ Digest)) = .ok ()) :
    (search.ofLeaf l).dissat.witness.Gives fun taken =>
      (Budget.ofLeaf context l).Reckons .bytes .free false (Measure.bytes.weigh taken) := by
  let empty : Search κ := { search with material := .none }
  have reckonable : empty.Reckonable context .bytes .free := by
    refine ⟨scheme, fun key signature found => ?_, nofun, nofun, rfl⟩
    cases same : empty.scheme <;> rw [same] at found <;> cases found
  have same : (search.ofLeaf l).dissat = (empty.ofLeaf l).dissat := by cases l <;> rfl
  rw [same]
  exact (Search.reckons_leaf reckonable permitted).dissat

/-- What is found to dissatisfy a condition takes no more bytes than its exact budget says, whichever
signatures there are. -/
theorem gives_dissat_within (valid : Validated context t) (scheme : search.scheme = context.scheme)
    (may : t.type.soundness.dissatisfiable = true) : (search.outcomes t).dissat.witness.Gives fun taken =>
      (t.exactBudget context).Reckons .bytes .free false (Measure.bytes.weigh taken) := by
  have empty : Witness.pushZero.Gives fun taken =>
      Reckoned .bytes .free .free (some .emptyElement) (Measure.bytes.weigh taken) :=
    Witness.gives_stack.mpr ⟨LockSet.allows_free, _, rfl, Nat.le_refl 1⟩
  induction t using Typed.induct with
  | leaf note l =>
    rw [Search.outcomes_leaf, exactBudget_leaf]
    exact (gives_dissat_leaf scheme valid.leaf.1).mono fun _ => Budget.Reckons.withoutMixedPaths
  | wrap note w x ih =>
    have may := valid.dissatisfiable_wrap.symm.trans may
    rw [Search.outcomes_wrap, exactBudget_wrap]
    refine Witness.Gives.mono ?_ fun _ => Budget.Reckons.withoutMixedPaths
    cases w with
    | alt | swap | check | zeroNotEqual => exact ih valid.wrap.1 may
    | dupIf | nonzero => exact empty
    | verify => cases may
  | pair note op x y ihX ihY =>
    obtain ⟨validX, validY, _⟩ := valid.pair
    obtain ⟨mayX, mayY⟩ := valid.dissatisfiable_of_pair
    have may := valid.dissatisfiable_pair.symm.trans may
    rw [Search.outcomes_pair, exactBudget_pair]
    refine Witness.Gives.mono ?_ fun _ => Budget.Reckons.withoutMixedPaths
    cases op with
    | andV | orC => cases may
    | andB =>
      obtain ⟨mayX, mayY⟩ := Bool.and_eq_true_iff.mp may
      exact Reckoned.gives_below (ihX validX mayX) (ihY validY mayY) 1
    | orB => exact Reckoned.gives_below (ihX validX (mayX (by simp))) (ihY validY (mayY rfl)) 1
    | orD => exact Reckoned.gives_below (ihX validX (mayX (by simp))) (ihY validY may) 1
    | orI =>
      have chooses : Measure.bytes.ChoosesOf _ _ (search.outcomes x) (search.outcomes y) :=
        valid.choosesWithin_bytes _ (Traversal.mem_preorder_self _)
      have one : Witness.pushOne.Gives (· = [[1]]) := Witness.gives_stack.mpr rfl
      have zero : Witness.pushZero.Gives (· = [[]]) := Witness.gives_stack.mpr rfl
      intro stack found
      rw [Measure.weigh_reverse]
      -- Which branch was taken is not known, but it takes no more bytes than one that may be.
      obtain ⟨other, ⟨mayX, found'⟩ | ⟨mayY, found'⟩, le⟩ := chooses may stack found
      · obtain ⟨_, taken, shape, rfl, reckoned⟩ := (ihX validX mayX).below one other found'
        refine Reckoned.mono ?_ le
        rw [← Measure.weigh_reverse, shape]
        exact reckoned.select.1.left
      · obtain ⟨_, taken, shape, rfl, reckoned⟩ := (ihY validY mayY).below zero other found'
        refine Reckoned.mono ?_ le
        rw [← Measure.weigh_reverse, shape]
        exact reckoned.select.2.right
  | andOr note x y z ihX _ ihZ =>
    obtain ⟨validX, _, validZ, _⟩ := valid.andOr
    obtain ⟨mayX, mayZ⟩ := valid.dissatisfiable_andOr
    rw [Search.outcomes_andOr, exactBudget_andOr]
    refine Witness.Gives.mono ?_ fun _ => Budget.Reckons.withoutMixedPaths
    exact Reckoned.gives_below (ihX validX mayX) (ihZ validZ (mayZ.symm.trans may)) 0
  | thresh note k items ih =>
    obtain ⟨each, _⟩ := valid.dissatisfiable_thresh
    have below : List.Forall₂ Outcomes.Gives (items.map search.outcomes) (items.map fun x answer taken =>
        answer = false → (x.exactBudget context).Reckons .bytes .free false (Measure.bytes.weigh taken)) := by
      rw [List.forall₂_map_left_iff, List.forall₂_map_right_iff, List.forall₂_same]
      exact fun x member => ⟨fun _ _ => nofun,
        (ih x member (valid.thresh.1 x member) (each x member)).mono fun _ within _ => within⟩
    rw [Search.outcomes_thresh, exactBudget_thresh, Outcomes.thresh_dissat_witness]
    refine (Outcomes.gives_gather below List.length_replicate).mono ?_
    rintro _ ⟨parts, runs, rfl, none⟩
    refine Budget.Reckons.withoutMixedPaths ?_
    rw [Measure.weigh_flatMap]
    refine Budget.reckons_thresholdNone ?_
    rw [List.forall₂_map_left_iff] at runs
    rw [List.forall₂_map_left_iff, List.forall₂_map_right_iff]
    exact forall₂_imp_of_mem (fun x _ part member run =>
      run (List.eq_of_mem_replicate (none ▸ List.mem_map_of_mem member))) runs

/-- What can be dissatisfied has a bound, and the search finds a dissatisfaction within it that takes no
signature. The bound is in words; it is the exact one if a word can count it. -/
theorem exists_dissat_bound (valid : Validated context t) (may : t.type.soundness.dissatisfiable = true) :
    ∃ usage exact, t.budget.dissat = some usage ∧ (t.exactBudget context).dissat = some exact ∧
      usage.Counts .witnessSize exact ∧ ∀ search : Search κ, search.scheme = context.scheme →
        ∃ items, (search.outcomes t).dissat = ⟨.stack items, false⟩ ∧
          witnessSize items ≤ exact.witnessSize := by
  obtain ⟨usage, bounded⟩ := Option.isSome_iff_exists.mp (valid.isSome_dissat_iff.mpr may)
  obtain ⟨exact, known, counts⟩ : ∃ exact, (t.exactBudget context).dissat = some exact ∧
      usage.Counts .witnessSize exact := by
    have counts := (valid.counts_budget .witnessSize).dissat
    rw [bounded] at counts
    generalize (t.exactBudget context).dissat = bound at counts ⊢
    cases counts with
    | some counts => exact ⟨_, rfl, counts⟩
  refine ⟨usage, exact, bounded, known, counts, fun search scheme => ?_⟩
  obtain ⟨items, found⟩ : ∃ items, (search.outcomes t).dissat = ⟨.stack items, false⟩ := valid.dissat_eq may
  obtain ⟨_, same, le⟩ := (valid.gives_dissat_within scheme may items
    (congrArg Satisfaction.witness found)).within
  obtain rfl := Option.some.inj (known.symm.trans same)
  exact ⟨items, found, (Measure.bytes.weigh_reverse items).symm.trans_le le⟩

/-- The views of dissatisfiability agree on every node of a condition. The bound in words is the exact one if
it does not wrap around, which it could only do in a condition that no memory holds. -/
theorem dissatisfiable_agrees (valid : Validated context t) {x : Typed κ Digest}
    (below : x ∈ Traversal.preorder t) :
    (x.type.soundness.dissatisfiable = true ↔ x.budget.dissat.isSome = true) ∧
    (x.type.soundness.dissatisfiable = true ↔ x.budget.lockPaths.dissat = .free) ∧
    (x.type.soundness.dissatisfiable = false → x.budget.lockPaths.dissat = .empty) ∧
    (x.type.soundness.dissatisfiable = true → ∃ usage exact,
      x.budget.dissat = some usage ∧ (x.exactBudget context).dissat = some exact ∧
      (exact.witnessSize < 2 ^ 64 → usage.witnessSize.toNat = exact.witnessSize) ∧
      ∀ policy (material : Material κ), ∃ items,
        ((t.search context policy material).outcomes x).dissat = ⟨.stack items, false⟩ ∧
          witnessSize items ≤ exact.witnessSize ∧
          (exact.witnessSize < 2 ^ 64 → witnessSize items ≤ usage.witnessSize.toNat)) := by
  have validX := valid.of_mem_preorder below
  have paths := validX.lockPaths_dissat
  refine ⟨validX.isSome_dissat_iff.symm, ⟨fun may => ?_, fun free => ?_⟩, fun never => ?_, fun may => ?_⟩
  · rwa [if_pos may] at paths
  · by_contra never
    rw [if_neg never, free] at paths
    exact absurd paths (by decide)
  · rwa [never] at paths
  · obtain ⟨usage, exact, bounded, known, counts, found⟩ := validX.exists_dissat_bound may
    refine ⟨usage, exact, bounded, known, counts, fun policy material => ?_⟩
    obtain ⟨items, same, size⟩ := found (t.search context policy material) rfl
    exact ⟨items, same, size, fun narrow => size.trans_eq (counts narrow).symm⟩

end Search

/-- To dissatisfy a `pkh`, the key of 33 bytes and the empty element are pushed. -/
theorem dissatisfiable_agrees_pkh : ∃ (t : Typed PointKey Digest) (usage : Usage Word),
    Validated .segwit t ∧ t ∈ Traversal.preorder t ∧ t.type.soundness.dissatisfiable = true ∧
      t.budget.dissat = some usage ∧ usage.witnessSize.toNat = 35 ∧ t.budget.lockPaths.dissat = .free ∧
      ∀ policy (material : Material PointKey), ∃ items,
        ((t.search .segwit policy material).outcomes t).dissat = ⟨.stack items, false⟩ ∧
          witnessSize items ≤ usage.witnessSize.toNat := by
  have valid : Validated .segwit (pkh 12) := validated_pkh 12
  have self := Traversal.mem_preorder_self (pkh 12)
  have may : (pkh 12).type.soundness.dissatisfiable = true := rfl
  obtain ⟨_, paths, _, bounds⟩ := valid.dissatisfiable_agrees self
  obtain ⟨usage, exact, bounded, known, counts, found⟩ := bounds may
  have size : ((pkh 12).exactBudget .segwit).dissat = some (.pushes 35 2 35 2) := by decide +kernel
  obtain rfl := Option.some.inj (known.symm.trans size)
  refine ⟨pkh 12, usage, valid, self, may, bounded, counts (by decide), paths.mp may, fun policy material => ?_⟩
  obtain ⟨items, same, _, within⟩ := found policy material
  exact ⟨items, same, within (by decide)⟩

end Typed.Validated

end LockScript
