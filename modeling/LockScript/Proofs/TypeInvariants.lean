import LockScript.Proofs.Attributes
import LockScript.Proofs.Dissatisfaction

/-! # What the attributes of a fragment have to do with each other

Soundness, malleability and budget follow three sets of rules, and most combinations of them make no
sense together. None of those comes out: over children with consistent attributes every rule leads to
consistent attributes. The case that links all three is a fragment without input. Nobody can exchange
its witness, which is empty, and if it can be dissatisfied, by the empty witness, then by no other one,
and it cannot be satisfied.
-/

namespace LockScript

namespace Soundness

/-! ## Fragments without input -/

theorem sequence_eq_zero {x y : Input} : x.sequence y = .zero ↔ x = .zero ∧ y = .zero := by
  cases x <;> cases y <;> decide

theorem orBInput_eq_zero {x y : Input} : orBInput x y = .zero ↔ x = .zero ∧ y = .zero := by
  cases x <;> cases y <;> decide

theorem orInput_eq_zero {x y : Input} : orInput x y = .zero ↔ x = .zero ∧ y = .zero := by
  cases x <;> cases y <;> decide

theorem orIInput_ne_zero (x y : Input) : orIInput x y ≠ .zero := by
  cases x <;> cases y <;> decide

theorem andOrInput_eq_zero {x y z : Input} :
    andOrInput x y z = .zero ↔ x = .zero ∧ y = .zero ∧ z = .zero := by
  cases x <;> cases y <;> cases z <;> decide

theorem thresholdInput_eq_zero {items : List Input} (empty : thresholdInput items = .zero) :
    ∀ x ∈ items, x = .zero := by
  have none : sumOf Input.count items = 0 := by
    simp only [thresholdInput] at empty
    split at empty
    · assumption
    · cases empty
    · cases empty
  clear empty
  induction items with
  | nil => exact List.forall_mem_nil _
  | cons x rest ih =>
    obtain ⟨head, tail⟩ : x.count = 0 ∧ sumOf Input.count rest = 0 := Nat.add_eq_zero_iff.mp none
    refine List.forall_mem_cons.mpr ⟨?_, ih tail⟩
    cases x <;> first | rfl | cases head

/-- Of the children of a threshold only the first can do without input, so it is the only one. -/
theorem threshold_inputless {first s : Soundness} {rest : List Soundness}
    (below : ∀ x ∈ first :: rest, x.base = .W → x.input = .any)
    (typed : threshold (first :: rest) = .ok s) (empty : s.input = .zero) :
    rest = [] ∧ first.input = .zero ∧ first.dissatisfiable = true := by
  obtain ⟨_, bases, answers, rfl⟩ := threshold_eq_ok.mp typed
  obtain ⟨head, tail⟩ := List.forall_mem_cons.mp
    (List.forall_mem_map.mp (thresholdInput_eq_zero empty))
  refine ⟨List.eq_nil_iff_forall_not_mem.mpr fun x member => ?_, head,
    (answers first List.mem_cons_self).2⟩
  cases (tail x member).symm.trans (below x (List.mem_cons_of_mem first member) (bases x member))

end Soundness

namespace Usage

variable {ν : Type} [Quantity ν]

theorem followedBy?_none (first : Option (Usage ν)) (shift : Nat) :
    followedBy? first none shift = none := by
  cases first <;> rfl

/-- One of one children cannot be satisfied if that one cannot. -/
theorem threshold?_none (execItems : ν) (dissat : Option (Usage ν)) :
    threshold? 1 execItems [(none, dissat)] = none := by
  cases dissat <;> rfl

end Usage

namespace Attributes

/-! ## The rules keep attributes consistent -/

/-- What a type and a budget that stand beside each other say of each other. -/
structure Consistent (a : Attributes) : Prop where
  /-- What finds its arguments below the top of the stack says nothing of their number. -/
  below : a.type.soundness.base = .W → a.type.soundness.input = .any
  verifies : a.type.soundness.base = .V → a.type.soundness.dissatisfiable = false ∧
    a.type.soundness.unit = false ∧ a.type.malleability.dissatisfaction = .none
  /-- What pushes a key leaves its signature for the check that follows. -/
  pushesKey : a.type.soundness.base = .K →
    a.type.soundness.unit = true ∧ a.type.malleability.safe = true
  inputless : a.type.soundness.input = .zero → a.type.malleability.nonMalleable = true
  silent : a.type.soundness.input = .zero → a.type.soundness.dissatisfiable = true →
    a.type.malleability.dissatisfaction = .unique ∧ a.type.malleability.safe = true ∧
      a.budget.sat = none

variable {a x y z : Attributes} {type : FragmentType}

/-- Most rules are about the other base types. -/
theorem consistent_of_B (base : a.type.soundness.base = .B)
    (inputless : a.type.soundness.input = .zero → a.type.malleability.nonMalleable = true)
    (silent : a.type.soundness.input = .zero → a.type.soundness.dissatisfiable = true →
      a.type.malleability.dissatisfaction = .unique ∧ a.type.malleability.safe = true ∧
        a.budget.sat = none) : a.Consistent where
  below other := absurd (base.symm.trans other) (by decide)
  verifies other := absurd (base.symm.trans other) (by decide)
  pushesKey other := absurd (base.symm.trans other) (by decide)
  inputless := inputless
  silent := silent

/-- What is verified is never dissatisfied, so without input it must hold. -/
theorem consistent_of_V (base : a.type.soundness.base = .V)
    (verifies : a.type.soundness.dissatisfiable = false ∧ a.type.soundness.unit = false ∧
      a.type.malleability.dissatisfaction = .none)
    (inputless : a.type.soundness.input = .zero → a.type.malleability.nonMalleable = true) :
    a.Consistent where
  below other := absurd (base.symm.trans other) (by decide)
  verifies _ := verifies
  pushesKey other := absurd (base.symm.trans other) (by decide)
  inputless := inputless
  silent _ answers := absurd (verifies.1.symm.trans answers) Bool.false_ne_true

theorem consistent_ofLeaf {κ δ : Type} [KeyLike κ] [DigestLike δ] (context : Context) (l : Leaf κ δ) :
    (⟨.ofLeaf l, .ofLeaf context l⟩ : Attributes).Consistent := by
  cases l with
  | key | keyHash => exact ⟨nofun, nofun, fun _ => ⟨rfl, rfl⟩, nofun, nofun⟩
  | zero => exact consistent_of_B rfl (fun _ => rfl) fun _ _ => ⟨rfl, rfl, rfl⟩
  | one | after | older => exact consistent_of_B rfl (fun _ => rfl) nofun
  | digest | multi | multiA => exact consistent_of_B rfl nofun nofun

namespace Consistent

/-- Leaving out bounds leaves nothing else out. -/
theorem withoutMixedPaths (consistent : a.Consistent) :
    (⟨a.type, a.budget.withoutMixedPaths⟩ : Attributes).Consistent where
  below := consistent.below
  verifies := consistent.verifies
  pushesKey := consistent.pushesKey
  inputless := consistent.inputless
  silent empty answers := by
    obtain ⟨unique, safe, none⟩ := consistent.silent empty answers
    exact ⟨unique, safe, by simp [Budget.withoutMixedPaths, none]⟩

theorem wrap (consistent : x.Consistent) {w : Wrapper} (typed : FragmentType.wrap w x.type = .ok type) :
    (⟨type, .wrap w x.budget⟩ : Attributes).Consistent := by
  cases w with
  | alt =>
    obtain ⟨_, made, rfl⟩ := map_eq_ok.mp typed
    obtain ⟨_, rfl⟩ := Soundness.alt_eq_ok.mp made
    exact ⟨fun _ => rfl, nofun, nofun, nofun, nofun⟩
  | swap =>
    obtain ⟨_, made, rfl⟩ := map_eq_ok.mp typed
    obtain ⟨_, _, rfl⟩ := Soundness.swap_eq_ok.mp made
    exact ⟨fun _ => rfl, nofun, nofun, nofun, nofun⟩
  | check =>
    obtain ⟨_, made, rfl⟩ := map_eq_ok.mp typed
    obtain ⟨_, rfl⟩ := Soundness.check_eq_ok.mp made
    exact consistent_of_B rfl consistent.inputless consistent.silent
  | dupIf =>
    obtain ⟨_, made, rfl⟩ := map_eq_ok.mp typed
    obtain ⟨_, _, rfl⟩ := Soundness.dupIf_eq_ok.mp made
    exact consistent_of_B rfl nofun nofun
  | verify =>
    obtain ⟨_, made, rfl⟩ := map_eq_ok.mp typed
    obtain ⟨_, rfl⟩ := Soundness.verify_eq_ok.mp made
    exact consistent_of_V rfl ⟨rfl, rfl, rfl⟩ consistent.inputless
  | nonzero =>
    obtain ⟨_, made, rfl⟩ := map_eq_ok.mp typed
    obtain ⟨base, takes, rfl⟩ := Soundness.nonzero_eq_ok.mp made
    have filled : x.type.soundness.input ≠ .zero := by
      intro empty
      rw [empty] at takes
      cases takes
    exact consistent_of_B base (fun empty => absurd empty filled) fun empty => absurd empty filled
  | zeroNotEqual =>
    obtain ⟨_, made, rfl⟩ := map_eq_ok.mp typed
    obtain ⟨base, rfl⟩ := Soundness.zeroNotEqual_eq_ok.mp made
    exact consistent_of_B base consistent.inputless consistent.silent

theorem pair (consistentX : x.Consistent) (consistentY : y.Consistent) {op : Connective}
    (typed : FragmentType.pair op x.type y.type = .ok type) :
    (⟨type, .pair op x.budget y.budget⟩ : Attributes).Consistent := by
  cases op with
  | andV =>
    obtain ⟨_, made, rfl⟩ := map_eq_ok.mp typed
    obtain ⟨_, notW, rfl⟩ := Soundness.andV_eq_ok.mp made
    refine ⟨fun base => absurd base notW, fun base => ?_, fun base => ?_, fun empty => ?_,
      fun _ answers => absurd answers Bool.false_ne_true⟩
    · obtain ⟨_, unit, none⟩ := consistentY.verifies base
      exact ⟨rfl, unit, Malleability.andV_eq_none.mpr (.inl none)⟩
    · obtain ⟨unit, safe⟩ := consistentY.pushesKey base
      exact ⟨unit, Bool.or_eq_true_iff.mpr (.inr safe)⟩
    · obtain ⟨emptyX, emptyY⟩ := Soundness.sequence_eq_zero.mp empty
      exact Bool.and_eq_true_iff.mpr ⟨consistentX.inputless emptyX, consistentY.inputless emptyY⟩
  | andB =>
    obtain ⟨_, made, rfl⟩ := map_eq_ok.mp typed
    obtain ⟨_, base, rfl⟩ := Soundness.andB_eq_ok.mp made
    -- The right side takes any number of arguments, so the whole is not without input.
    have filled : x.type.soundness.input.sequence y.type.soundness.input ≠ .zero := by
      rw [consistentY.below base, ne_eq, Soundness.sequence_eq_zero]
      exact fun empty => absurd empty.2 (by decide)
    exact consistent_of_B rfl (fun empty => absurd empty filled) fun empty => absurd empty filled
  | orB =>
    obtain ⟨_, made, rfl⟩ := map_eq_ok.mp typed
    obtain ⟨_, base, _, _, rfl⟩ := Soundness.orB_eq_ok.mp made
    have filled : Soundness.orBInput x.type.soundness.input y.type.soundness.input ≠ .zero := by
      rw [consistentY.below base, ne_eq, Soundness.orBInput_eq_zero]
      exact fun empty => absurd empty.2 (by decide)
    exact consistent_of_B rfl (fun empty => absurd empty filled) fun empty => absurd empty filled
  | orD =>
    obtain ⟨_, made, rfl⟩ := map_eq_ok.mp typed
    obtain ⟨answersX, _, _, _, rfl⟩ := Soundness.orD_eq_ok.mp made
    refine consistent_of_B rfl (fun empty => ?_) fun empty answersY => ?_
    · obtain ⟨emptyX, emptyY⟩ := Soundness.orInput_eq_zero.mp empty
      obtain ⟨uniqueX, safeX, _⟩ := consistentX.silent emptyX answersX
      simp [Malleability.orD, consistentX.inputless emptyX, consistentY.inputless emptyY, *]
    · obtain ⟨emptyX, emptyY⟩ := Soundness.orInput_eq_zero.mp empty
      obtain ⟨_, safeX, noneX⟩ := consistentX.silent emptyX answersX
      obtain ⟨uniqueY, safeY, noneY⟩ := consistentY.silent emptyY answersY
      refine ⟨uniqueY, Bool.and_eq_true_iff.mpr ⟨safeX, safeY⟩, ?_⟩
      change Usage.worst? x.budget.sat (Usage.followedBy? x.budget.dissat y.budget.sat 0) = none
      rw [noneX, noneY, Usage.followedBy?_none]
      rfl
  | orC =>
    obtain ⟨_, made, rfl⟩ := map_eq_ok.mp typed
    obtain ⟨answersX, _, _, _, rfl⟩ := Soundness.orC_eq_ok.mp made
    refine consistent_of_V rfl ⟨rfl, rfl, rfl⟩ fun empty => ?_
    obtain ⟨emptyX, emptyY⟩ := Soundness.orInput_eq_zero.mp empty
    obtain ⟨uniqueX, safeX, _⟩ := consistentX.silent emptyX answersX
    simp [Malleability.orC, Malleability.orD, consistentX.inputless emptyX,
      consistentY.inputless emptyY, *]
  | orI =>
    obtain ⟨_, made, rfl⟩ := map_eq_ok.mp typed
    obtain ⟨same, notW, rfl⟩ := Soundness.orI_eq_ok.mp made
    have filled := Soundness.orIInput_ne_zero x.type.soundness.input y.type.soundness.input
    refine ⟨fun base => absurd base notW, fun base => ?_, fun base => ?_,
      fun empty => absurd empty filled, fun empty => absurd empty filled⟩
    · obtain ⟨noX, unitX, noneX⟩ := consistentX.verifies (same.trans base)
      obtain ⟨noY, unitY, noneY⟩ := consistentY.verifies base
      exact ⟨by simp [*], by simp [*], Malleability.orI_eq_none.mpr ⟨noneX, noneY⟩⟩
    · obtain ⟨unitX, safeX⟩ := consistentX.pushesKey (same.trans base)
      obtain ⟨unitY, safeY⟩ := consistentY.pushesKey base
      exact ⟨Bool.and_eq_true_iff.mpr ⟨unitX, unitY⟩, Bool.and_eq_true_iff.mpr ⟨safeX, safeY⟩⟩

theorem andOr (consistentX : x.Consistent) (consistentY : y.Consistent) (consistentZ : z.Consistent)
    (typed : FragmentType.andOr x.type y.type z.type = .ok type) :
    (⟨type, .andOr x.budget y.budget z.budget⟩ : Attributes).Consistent := by
  obtain ⟨_, made, rfl⟩ := map_eq_ok.mp typed
  obtain ⟨answersX, _, _, same, notW, rfl⟩ := Soundness.andOr_eq_ok.mp made
  refine ⟨fun base => absurd base notW, fun base => ?_, fun base => ?_, fun empty => ?_,
    fun empty answersZ => ?_⟩
  · obtain ⟨_, unitY, noneY⟩ := consistentY.verifies (same.trans base)
    obtain ⟨noZ, unitZ, noneZ⟩ := consistentZ.verifies base
    exact ⟨noZ, by simp [*], (Malleability.andOr_dissatisfaction (by decide)).mpr ⟨.inr noneY, noneZ⟩⟩
  · obtain ⟨unitY, safeY⟩ := consistentY.pushesKey (same.trans base)
    obtain ⟨unitZ, safeZ⟩ := consistentZ.pushesKey base
    exact ⟨by simp [*], by simp [Malleability.andOr, *]⟩
  · obtain ⟨emptyX, emptyY, emptyZ⟩ := Soundness.andOrInput_eq_zero.mp empty
    obtain ⟨uniqueX, safeX, _⟩ := consistentX.silent emptyX answersX
    simp [Malleability.andOr, consistentX.inputless emptyX, consistentY.inputless emptyY,
      consistentZ.inputless emptyZ, *]
  · obtain ⟨emptyX, _, emptyZ⟩ := Soundness.andOrInput_eq_zero.mp empty
    obtain ⟨_, safeX, noneX⟩ := consistentX.silent emptyX answersX
    obtain ⟨uniqueZ, safeZ, noneZ⟩ := consistentZ.silent emptyZ answersZ
    refine ⟨(Malleability.andOr_dissatisfaction (by decide)).mpr ⟨.inl safeX, uniqueZ⟩,
      by simp [Malleability.andOr, *], ?_⟩
    change Usage.worst? (Usage.followedBy? x.budget.sat y.budget.sat 0)
      (Usage.followedBy? x.budget.dissat z.budget.sat 0) = none
    rw [noneX, noneZ, Usage.followedBy?_none]
    rfl

theorem threshold {k : Nat} {items : List Attributes} (consistent : ∀ x ∈ items, x.Consistent)
    (positive : 0 < k) (bounded : k ≤ items.length)
    (typed : FragmentType.threshold k (items.map Attributes.type) = .ok type) :
    (⟨type, .threshold k (items.map Attributes.budget)⟩ : Attributes).Consistent := by
  obtain ⟨first, rest, rfl⟩ := List.exists_cons_of_length_pos (Nat.lt_of_lt_of_le positive bounded)
  obtain ⟨s, made, rfl⟩ := map_eq_ok.mp typed
  rw [List.map_cons, List.map_cons] at made
  have base : s.base = .B := by
    obtain ⟨_, _, _, rfl⟩ := Soundness.threshold_eq_ok.mp made
    rfl
  -- Without input there is no choice: the threshold is one of one.
  have sole (empty : s.input = .zero) : rest = [] ∧ k = 1 ∧
      first.type.soundness.input = .zero ∧ first.type.soundness.dissatisfiable = true := by
    obtain ⟨none, emptyFirst, answers⟩ := Soundness.threshold_inputless (fun s member => by
      rw [← List.map_cons, ← List.map_cons, List.map_map] at member
      obtain ⟨x, among, rfl⟩ := List.mem_map.mp member
      exact (consistent x among).below) made empty
    obtain rfl := List.map_eq_nil_iff.mp (List.map_eq_nil_iff.mp none)
    exact ⟨rfl, Nat.le_antisymm bounded positive, emptyFirst, answers⟩
  have consistentFirst := consistent first List.mem_cons_self
  refine consistent_of_B base (fun empty => ?_) fun empty _ => ?_
  · obtain ⟨rfl, rfl, emptyFirst, answers⟩ := sole empty
    obtain ⟨unique, safe, _⟩ := consistentFirst.silent emptyFirst answers
    simp [Malleability.threshold, consistentFirst.inputless emptyFirst, *]
  · obtain ⟨rfl, rfl, emptyFirst, answers⟩ := sole empty
    obtain ⟨unique, safe, none⟩ := consistentFirst.silent emptyFirst answers
    refine ⟨by simp [Malleability.threshold, *], by simp [Malleability.threshold, *], ?_⟩
    change Usage.threshold? 1 _ [(first.budget.sat, first.budget.dissat)] = .none
    rw [none]
    exact Usage.threshold?_none _ _

end Consistent

end Attributes

namespace Typed

variable {κ δ : Type} [KeyLike κ] [DigestLike δ] {context : Context} {t : Typed κ δ}

/-- Whatever goes on top of consistent attributes has consistent ones itself. -/
theorem consistent_ofFragment {fragment : Fragment κ δ (Typed κ δ)} {type : FragmentType}
    (below : ∀ x ∈ fragment.children, x.note.Consistent)
    (inRange : ∀ k items, fragment = .thresh k items → 0 < k ∧ k ≤ items.length)
    (typed : FragmentType.ofFragment (fragment.map Typed.type) = .ok type) :
    (⟨type, Budget.ofFragment context (fragment.map budget)⟩ : Attributes).Consistent := by
  cases fragment with
  | leaf l =>
    obtain rfl := Except.ok.inj typed
    exact (Attributes.consistent_ofLeaf context l).withoutMixedPaths
  | wrap w x =>
    have consistent : x.note.Consistent := below x List.mem_cons_self
    exact (consistent.wrap typed).withoutMixedPaths
  | pair op x y =>
    obtain ⟨consistentX, below⟩ := List.forall_mem_cons.mp below
    have consistentY : y.note.Consistent := below y List.mem_cons_self
    exact (consistentX.pair consistentY typed).withoutMixedPaths
  | andOr x y z =>
    obtain ⟨consistentX, below⟩ := List.forall_mem_cons.mp below
    obtain ⟨consistentY, below⟩ := List.forall_mem_cons.mp below
    have consistentZ : z.note.Consistent := below z List.mem_cons_self
    exact (consistentX.andOr consistentY consistentZ typed).withoutMixedPaths
  | thresh k items =>
    obtain ⟨positive, bounded⟩ := inRange k items rfl
    have made : FragmentType.threshold k ((items.map Condition.note).map Attributes.type) =
        .ok type := by
      rw [List.map_map]
      exact typed
    have consistent := Attributes.Consistent.threshold (List.forall_mem_map.mpr below) positive
      (by rwa [List.length_map]) made
    rw [List.map_map] at consistent
    exact consistent.withoutMixedPaths

/-- The attributes of every condition that can be made are consistent. -/
theorem Validated.consistent (valid : Validated context t) : t.note.Consistent := by
  induction t using Condition.induct_children with
  | node t ih =>
    obtain ⟨-, below, inRange⟩ := valid.node
    have consistent :
        (⟨type t, Budget.ofFragment context (t.fragment.map budget)⟩ : Attributes).Consistent :=
      consistent_ofFragment (fun x member => ih x member (below x member)) inRange valid.typed
    rw [← valid.spent] at consistent
    exact consistent

/-- The attributes of all nodes of a condition make sense together. What takes its arguments from
below the top does not say how many, what is verified has no dissatisfaction and pushes nothing, and a
key is pushed by safe fragments only. The two views of dissatisfactions agree. What needs no input
cannot be malleated, and if it can be dissatisfied, it cannot be satisfied. -/
theorem Reachable.attributes_consistent (made : Reachable context t) :
    ∀ x ∈ Traversal.preorder t,
      (x.type.soundness.base = .W → x.type.soundness.input = .any) ∧
      (x.type.soundness.base = .V → x.type.soundness.dissatisfiable = false ∧
        x.type.soundness.unit = false ∧ x.type.malleability.dissatisfaction = .none) ∧
      (x.type.soundness.base = .K →
        x.type.soundness.unit = true ∧ x.type.malleability.safe = true) ∧
      (x.type.malleability.dissatisfaction = .none → x.type.soundness.dissatisfiable = false) ∧
      (x.type.malleability.dissatisfaction = .unique → x.type.soundness.dissatisfiable = true) ∧
      (x.type.soundness.input = .zero → x.type.malleability.nonMalleable = true) ∧
      (x.type.soundness.input = .zero → x.type.soundness.dissatisfiable = true →
        x.type.malleability.dissatisfaction = .unique ∧ x.type.malleability.safe = true ∧
          x.budget.sat = none) := by
  intro x member
  have valid := made.validated.of_mem_preorder member
  have consistent := valid.consistent
  exact ⟨consistent.below, consistent.verifies, consistent.pushesKey, valid.coherent.2,
    valid.coherent.1, consistent.inputless, consistent.silent⟩

/-- The condition `and_b(or_d(0,0),s:pk(A))`, whose left side needs no input and never holds. -/
def neverHolds (context : Context) (key : κ) : Typed κ δ :=
  let zero : Typed κ δ := ofFragment context (.leaf .zero)
  ofFragment context (.pair .andB (ofFragment context (.pair .orD zero zero))
    (ofFragment context (.wrap .swap (pk context key))))

/-- Both sides of `and_b(or_d(0,0),s:pk(A))` fall under one of the rules. -/
theorem attributes_consistent_neverHolds :
    ∃ (key : PointKey) (x y : Typed PointKey Digest),
      Reachable .segwit (neverHolds .segwit key : Typed PointKey Digest) ∧
        (neverHolds .segwit key : Typed PointKey Digest).children = [x, y] ∧
        x.type.soundness.input = .zero ∧ x.type.soundness.dissatisfiable = true ∧
        x.budget.sat = none ∧ y.type.soundness.base = .W ∧ y.type.soundness.input = .any := by
  let key : PointKey := ⟨false, Vector.replicate 32 1⟩
  have zero : Validated .segwit (ofFragment .segwit (.leaf .zero) : Typed PointKey Digest) :=
    validated_ofFragment rfl nofun
  have valid : Validated .segwit (neverHolds .segwit key : Typed PointKey Digest) :=
    validated_ofFragment rfl (List.forall_mem_cons.mpr
      ⟨validated_ofFragment rfl (List.forall_mem_cons.mpr ⟨zero, List.forall_mem_singleton.mpr zero⟩),
        List.forall_mem_singleton.mpr
          (validated_ofFragment rfl (List.forall_mem_singleton.mpr (validated_pk rfl)))⟩)
  have consistent (x : Typed PointKey Digest) (member : x ∈ (neverHolds .segwit key).children) :=
    Reachable.attributes_consistent valid.reachable x
      ((Condition.mem_preorder_iff _ x).mpr (.inr ⟨x, member, Traversal.mem_preorder_self x⟩))
  obtain ⟨-, -, -, -, -, -, silent⟩ := consistent _ List.mem_cons_self
  obtain ⟨below, -⟩ := consistent _ (List.mem_cons_of_mem _ List.mem_cons_self)
  exact ⟨key, _, _, valid.reachable, rfl, rfl, rfl, (silent rfl rfl).2.2, rfl, below rfl⟩

end Typed

end LockScript
