import LockScript.Proofs.Candidates
import LockScript.Proofs.ExactUsage
import LockScript.Proofs.LockPaths

/-! # Conditions that no transaction can satisfy

A budget keeps the combinations of locks with which each answer can be given. Where one of them can be
met at all, material with every signature, every secret and these locks makes the search succeed; where
none can, no transaction does. So the budget tells without any material whether more of it could help.
-/

namespace LockScript

namespace LockSet

variable {a b s : LockSet} {kinds : LockKinds}

/-- Some transaction can meet all locks of a combination in the set. -/
def Meetable (set : LockSet) : Prop :=
  ∃ allowed : LockKinds, allowed.isMixed = false ∧ set.Allows allowed

theorem not_meetable_empty : ¬(empty : LockSet).Meetable :=
  fun ⟨_, _, allows⟩ => not_allows_empty allows

theorem Meetable.isInhabited (meetable : s.Meetable) : s.isInhabited = true :=
  meetable.choose_spec.2.isInhabited

theorem Meetable.of_join (meetable : (a.join b).Meetable) : a.Meetable ∧ b.Meetable := by
  obtain ⟨allowed, unmixed, allows⟩ := meetable
  obtain ⟨first, second⟩ := (allows_join_iff unmixed).mp allows
  exact ⟨⟨allowed, unmixed, first⟩, ⟨allowed, unmixed, second⟩⟩

theorem Meetable.of_union (meetable : (a.union b).Meetable) : a.Meetable ∨ b.Meetable := by
  obtain ⟨allowed, unmixed, allows⟩ := meetable
  exact (allows_union_iff.mp allows).imp (⟨allowed, unmixed, ·⟩) (⟨allowed, unmixed, ·⟩)

end LockSet

theorem LockPaths.exists_of_meetable_byCount {items : List LockPaths} {count : Nat}
    (meetable : ((byCount items).getD count .empty).Meetable) : ∃ marks : List Bool,
      marks.countP id = count ∧ List.Forall₂ (fun x mark => (pick x mark).Meetable) items marks := by
  obtain ⟨allowed, unmixed, allows⟩ := meetable
  obtain ⟨marks, same, each⟩ := exists_of_allows_byCount unmixed allows
  exact ⟨marks, same, each.imp fun _ _ allows => ⟨allowed, unmixed, allows⟩⟩

namespace Usage

variable {ν : Type} [Quantity ν] {k : Nat} {items : List (Option (Usage ν) × Option (Usage ν))}
  {first second : Option (Usage ν)}

theorem isSome_followedBy? {shift : Nat} (left : first.isSome = true) (right : second.isSome = true) :
    (followedBy? first second shift).isSome = true := by
  obtain ⟨a, rfl⟩ := Option.isSome_iff_exists.mp left
  obtain ⟨b, rfl⟩ := Option.isSome_iff_exists.mp right
  rfl

theorem isSome_worst? (either : first.isSome = true ∨ second.isSome = true) :
    (worst? first second).isSome = true := by
  cases first <;> cases second <;> simp_all [worst?]

/-- There is a bound if all children can be dissatisfied and enough of them satisfied. -/
theorem isSome_thresholdMeasure? (measure : Usage ν → ν)
    (dissats : ∀ pair ∈ items, pair.2.isSome = true)
    (enough : k ≤ items.countP fun pair => pair.1.isSome) :
    (thresholdMeasure? measure k items).isSome = true := by
  have possible : items.any (fun pair => pair.1.isNone && pair.2.isNone) = false := by
    rw [List.any_eq_false]
    intro pair member
    simp [Option.isNone_eq_false_iff.mpr (dissats pair member)]
  have forced : items.countP (fun pair => pair.2.isNone) = 0 := by
    rw [List.countP_eq_zero]
    intro pair member
    simp [Option.isNone_eq_false_iff.mpr (dissats pair member)]
  have growing : (items.filterMap (growth? measure)).length = items.countP fun pair => pair.1.isSome := by
    rw [length_growth, List.countP_map]
    refine List.countP_congr fun pair member => ?_
    simp [lacks, Option.isNone_eq_false_iff.mpr (dissats pair member)]
  rw [thresholdMeasure?_eq]
  simp [possible, forced, growing, enough]

theorem isSome_threshold? {execItems : ν} (dissats : ∀ pair ∈ items, pair.2.isSome = true)
    (enough : k ≤ items.countP fun pair => pair.1.isSome) :
    (threshold? k execItems items).isSome = true :=
  (isSome_threshold?_eq .witnessSize k execItems items).trans (isSome_thresholdMeasure? _ dissats enough)

theorem isSome_thresholdNone? {execItems : ν} {dissats : List (Option (Usage ν))}
    (each : ∀ dissat ∈ dissats, dissat.isSome = true) :
    (thresholdNone? execItems dissats).isSome = true := by
  unfold thresholdNone?
  generalize ({ (pushes 0 0 0 0 : Usage ν) with execItems } : Usage ν) = start
  induction dissats generalizing start with
  | nil => rfl
  | cons first rest ih =>
    obtain ⟨head, rest⟩ := List.forall_mem_cons.mp each
    obtain ⟨usage, rfl⟩ := Option.isSome_iff_exists.mp head
    exact ih rest _

end Usage

namespace Budget

variable {ν : Type} [Quantity ν] {x y z : Budget ν}

/-- There is a bound for each answer that can be given at all. -/
structure Covers (budget : Budget ν) : Prop where
  sat : budget.lockPaths.sat.Meetable → budget.sat.isSome = true
  dissat : budget.lockPaths.dissat.Meetable → budget.dissat.isSome = true

omit [Quantity ν] in
theorem Covers.withoutMixedPaths (covers : x.Covers) : x.withoutMixedPaths.Covers where
  sat meetable := (congrArg Option.isSome (if_pos meetable.isInhabited)).trans (covers.sat meetable)
  dissat meetable := (congrArg Option.isSome (if_pos meetable.isInhabited)).trans (covers.dissat meetable)

/-- Bounds are kept only along with a combination of locks. -/
theorem isInhabited_ofFragment {κ δ : Type} [KeyLike κ] [DigestLike δ] {context : Context}
    {fragment : Fragment κ δ (Budget ν)} :
    ((ofFragment context fragment).sat.isSome = true →
      (ofFragment context fragment).lockPaths.sat.isInhabited = true) ∧
    ((ofFragment context fragment).dissat.isSome = true →
      (ofFragment context fragment).lockPaths.dissat.isInhabited = true) := by
  have kept {paths : LockSet} {usage : Option (Usage ν)}
      (bounded : (if paths.isInhabited then usage else none).isSome = true) : paths.isInhabited = true := by
    by_contra none
    rw [if_neg none] at bounded
    cases bounded
  exact ⟨kept, kept⟩

theorem covers_ofLeaf {κ δ : Type} [KeyLike κ] [DigestLike δ] (context : Context) (l : Leaf κ δ) :
    (ofLeaf context l : Budget ν).Covers := by
  have none {P : Prop} (meetable : (LockSet.empty).Meetable) : P :=
    absurd meetable LockSet.not_meetable_empty
  cases l with
  | one | after lock | older lock => exact ⟨fun _ => rfl, none⟩
  | zero => exact ⟨none, fun _ => rfl⟩
  | key k | keyHash k | digest d | multi ks | multiA ks => exact ⟨fun _ => rfl, fun _ => rfl⟩

theorem Covers.wrap (covers : x.Covers) (w : Wrapper) : (wrap w x).Covers := by
  cases w with
  | alt | swap | check | zeroNotEqual => exact ⟨covers.sat, covers.dissat⟩
  | dupIf => exact ⟨fun meetable => (Option.isSome_map ..).trans (covers.sat meetable), fun _ => rfl⟩
  | verify => exact ⟨covers.sat, fun meetable => absurd meetable LockSet.not_meetable_empty⟩
  | nonzero => exact ⟨covers.sat, fun _ => rfl⟩

/-- Where two fragments run, both must be able to answer. -/
private theorem isSome_joined {a b : LockSet} {first second : Option (Usage ν)} (shift : Nat)
    (left : a.Meetable → first.isSome = true) (right : b.Meetable → second.isSome = true)
    (meetable : (a.join b).Meetable) : (Usage.followedBy? first second shift).isSome = true :=
  Usage.isSome_followedBy? (left meetable.of_join.1) (right meetable.of_join.2)

/-- Where there is a choice, one of the alternatives must be able to answer. -/
private theorem isSome_either {a b : LockSet} {first second : Option (Usage ν)}
    (left : a.Meetable → first.isSome = true) (right : b.Meetable → second.isSome = true)
    (meetable : (a.union b).Meetable) : (Usage.worst? first second).isSome = true :=
  Usage.isSome_worst? (meetable.of_union.imp left right)

theorem Covers.pair (first : x.Covers) (second : y.Covers) (op : Connective) : (pair op x y).Covers := by
  have none {P : Prop} (meetable : (LockSet.empty).Meetable) : P :=
    absurd meetable LockSet.not_meetable_empty
  have selected {usage : Option (Usage ν)} {P : Prop} (size : Nat) (covers : P → usage.isSome = true)
      (holds : P) : (usage.map (·.withSelector size)).isSome = true :=
    (Option.isSome_map ..).trans (covers holds)
  cases op with
  | andV => exact ⟨isSome_joined 0 first.sat second.sat, none⟩
  | andB => exact ⟨isSome_joined 1 first.sat second.sat, isSome_joined 1 first.dissat second.dissat⟩
  | orB =>
    exact ⟨isSome_either (isSome_joined 1 first.sat second.dissat)
      (isSome_joined 1 first.dissat second.sat), isSome_joined 1 first.dissat second.dissat⟩
  | orD =>
    exact ⟨isSome_either first.sat (isSome_joined 0 first.dissat second.sat),
      isSome_joined 1 first.dissat second.dissat⟩
  | orC => exact ⟨isSome_either first.sat (isSome_joined 0 first.dissat second.sat), none⟩
  | orI =>
    exact ⟨isSome_either (selected 2 first.sat) (selected 1 second.sat),
      isSome_either (selected 2 first.dissat) (selected 1 second.dissat)⟩

theorem Covers.andOr (first : x.Covers) (second : y.Covers) (third : z.Covers) : (andOr x y z).Covers :=
  ⟨isSome_either (isSome_joined 0 first.sat second.sat) (isSome_joined 0 first.dissat third.sat),
    isSome_joined 0 first.dissat third.dissat⟩

theorem covers_threshold {k : Nat} {items : List (Budget ν)} (each : ∀ x ∈ items, x.Covers)
    (dissats : ∀ x ∈ items, x.dissat.isSome = true) : (threshold k items).Covers := by
  constructor
  · intro meetable
    change ((LockPaths.byCount (items.map lockPaths)).getD k .empty).Meetable at meetable
    obtain ⟨marks, same, answers⟩ := LockPaths.exists_of_meetable_byCount meetable
    rw [List.forall₂_map_left_iff] at answers
    refine Usage.isSome_threshold? (List.forall_mem_map.mpr dissats) ?_
    rw [List.countP_map, ← same]
    refine countP_le_of_forall₂ answers fun x member mark _ meetable yes => ?_
    rw [id_eq] at yes
    rw [yes] at meetable
    exact (each x member).sat meetable
  · exact fun _ => Usage.isSome_thresholdNone? (List.forall_mem_map.mpr dissats)

end Budget

namespace Typed.Validated

variable {κ δ : Type} [KeyLike κ] [DigestLike δ] {context : Context} {t x y z : Typed κ δ}
  {note : Attributes}

theorem lockPaths_leaf {l : Leaf κ δ} (valid : Validated context (.leaf note l)) :
    note.budget.lockPaths = (Budget.ofLeaf context l : Budget Word).lockPaths :=
  (congrArg (·.lockPaths) valid.spent :)

theorem lockPaths_wrap {w : Wrapper} (valid : Validated context (.wrap note w x)) :
    note.budget.lockPaths = (Budget.wrap w x.budget).lockPaths :=
  (congrArg (·.lockPaths) valid.spent :)

theorem lockPaths_pair {op : Connective} (valid : Validated context (.pair note op x y)) :
    note.budget.lockPaths = (Budget.pair op x.budget y.budget).lockPaths :=
  (congrArg (·.lockPaths) valid.spent :)

theorem lockPaths_andOr (valid : Validated context (.andOr note x y z)) :
    note.budget.lockPaths = (Budget.andOr x.budget y.budget z.budget).lockPaths :=
  (congrArg (·.lockPaths) valid.spent :)

theorem lockPaths_thresh {k : Nat} {items : List (Typed κ δ)}
    (valid : Validated context (.thresh note k items)) :
    note.budget.lockPaths = .threshold k (items.map fun x => x.budget.lockPaths) := by
  refine (congrArg Budget.lockPaths valid.spent).trans ?_
  change LockPaths.threshold k ((items.map budget).map Budget.lockPaths) = _
  rw [List.map_map]
  rfl

/-- What can be dissatisfied by its type can be dissatisfied without any lock. -/
theorem allows_free (valid : Validated context t) (may : t.type.soundness.dissatisfiable = true) :
    t.budget.lockPaths.dissat.Allows .free := by
  have free : LockKinds.free.isMixed = false := rfl
  induction t using Typed.induct with
  | leaf note l =>
    change note.type.soundness.dissatisfiable = true at may
    rw [← valid.leaf.2] at may
    change note.budget.lockPaths.dissat.Allows .free
    rw [valid.lockPaths_leaf]
    cases l with
    | zero | key k | keyHash k | digest d | multi ks | multiA ks => exact LockSet.allows_free
    | one | after lock | older lock => cases may
  | wrap note w x ih =>
    have may := valid.dissatisfiable_wrap.symm.trans may
    change note.budget.lockPaths.dissat.Allows .free
    rw [valid.lockPaths_wrap]
    cases w with
    | alt | swap | check | zeroNotEqual => exact ih valid.wrap.1 may
    | dupIf | nonzero => exact LockSet.allows_free
    | verify => cases may
  | pair note op x y ihX ihY =>
    obtain ⟨validX, validY, _⟩ := valid.pair
    obtain ⟨mayX, mayY⟩ := valid.dissatisfiable_of_pair
    have may := valid.dissatisfiable_pair.symm.trans may
    change note.budget.lockPaths.dissat.Allows .free
    rw [valid.lockPaths_pair]
    cases op with
    | andV | orC => cases may
    | andB =>
      obtain ⟨mayX, mayY⟩ := Bool.and_eq_true_iff.mp may
      exact (ihX validX mayX).join (ihY validY mayY) free
    | orB => exact (ihX validX (mayX (by simp))).join (ihY validY (mayY rfl)) free
    | orD => exact (ihX validX (mayX (by simp))).join (ihY validY may) free
    | orI =>
      rcases Bool.or_eq_true_iff.mp may with mayX | mayY
      · exact (ihX validX mayX).union_left
      · exact (ihY validY mayY).union_right
  | andOr note x y z ihX _ ihZ =>
    obtain ⟨validX, _, validZ, _⟩ := valid.andOr
    obtain ⟨mayX, mayZ⟩ := valid.dissatisfiable_andOr
    change note.budget.lockPaths.dissat.Allows .free
    rw [valid.lockPaths_andOr]
    exact (ihX validX mayX).join (ihZ validZ (mayZ.symm.trans may)) free
  | thresh note k items ih =>
    obtain ⟨each, _⟩ := valid.dissatisfiable_thresh
    change note.budget.lockPaths.dissat.Allows .free
    rw [valid.lockPaths_thresh]
    refine (LockPaths.allows_byCount_iff free).mpr ⟨List.replicate items.length false, ?_, ?_⟩
    · simp [List.countP_replicate]
    · rw [List.forall₂_map_left_iff, ← List.map_const', List.forall₂_map_right_iff, List.forall₂_same]
      exact fun x member => ih x member (valid.thresh.1 x member) (each x member)

/-- All combinations of locks that are kept can be met. -/
theorem unmixed (valid : Validated context t) :
    t.budget.lockPaths.sat.Unmixed ∧ t.budget.lockPaths.dissat.Unmixed := by
  induction t using Typed.induct with
  | leaf note l =>
    change note.budget.lockPaths.sat.Unmixed ∧ note.budget.lockPaths.dissat.Unmixed
    rw [valid.lockPaths_leaf]
    cases l with
    | one => exact ⟨LockSet.unmixed_free, LockSet.unmixed_empty⟩
    | zero => exact ⟨LockSet.unmixed_empty, LockSet.unmixed_free⟩
    | after lock =>
      refine ⟨LockSet.unmixed_single ?_, LockSet.unmixed_empty⟩
      simp [LockKinds.isMixed, LockKinds.ofAbsolute, LockKinds.free, AbsoluteLock.isTime]
    | older lock =>
      refine ⟨LockSet.unmixed_single ?_, LockSet.unmixed_empty⟩
      simp [LockKinds.isMixed, LockKinds.ofRelative, LockKinds.free, RelativeLock.isHeight]
    | key k | keyHash k | digest d | multi ks | multiA ks =>
      exact ⟨LockSet.unmixed_free, LockSet.unmixed_free⟩
  | wrap note w x ih =>
    obtain ⟨sat, dissat⟩ := ih valid.wrap.1
    change note.budget.lockPaths.sat.Unmixed ∧ note.budget.lockPaths.dissat.Unmixed
    rw [valid.lockPaths_wrap]
    cases w with
    | alt | swap | check | zeroNotEqual => exact ⟨sat, dissat⟩
    | dupIf | nonzero => exact ⟨sat, LockSet.unmixed_free⟩
    | verify => exact ⟨sat, LockSet.unmixed_empty⟩
  | pair note op x y ihX ihY =>
    obtain ⟨satX, dissatX⟩ := ihX valid.pair.1
    obtain ⟨satY, dissatY⟩ := ihY valid.pair.2.1
    change note.budget.lockPaths.sat.Unmixed ∧ note.budget.lockPaths.dissat.Unmixed
    rw [valid.lockPaths_pair]
    cases op with
    | andV => exact ⟨LockSet.unmixed_join _ _, LockSet.unmixed_empty⟩
    | andB => exact ⟨LockSet.unmixed_join _ _, LockSet.unmixed_join _ _⟩
    | orB => exact ⟨(LockSet.unmixed_join _ _).union (LockSet.unmixed_join _ _), LockSet.unmixed_join _ _⟩
    | orD => exact ⟨satX.union (LockSet.unmixed_join _ _), LockSet.unmixed_join _ _⟩
    | orC => exact ⟨satX.union (LockSet.unmixed_join _ _), LockSet.unmixed_empty⟩
    | orI => exact ⟨satX.union satY, dissatX.union dissatY⟩
  | andOr note x y z _ _ _ =>
    change note.budget.lockPaths.sat.Unmixed ∧ note.budget.lockPaths.dissat.Unmixed
    rw [valid.lockPaths_andOr]
    exact ⟨(LockSet.unmixed_join _ _).union (LockSet.unmixed_join _ _), LockSet.unmixed_join _ _⟩
  | thresh note k items _ =>
    change note.budget.lockPaths.sat.Unmixed ∧ note.budget.lockPaths.dissat.Unmixed
    rw [valid.lockPaths_thresh]
    exact ⟨LockPaths.unmixed_byCount _ _, LockPaths.unmixed_byCount _ _⟩

theorem covers (valid : Validated context t) : t.budget.Covers := by
  induction t using Typed.induct with
  | leaf note l =>
    rw [valid.spent]
    exact (Budget.covers_ofLeaf context l).withoutMixedPaths
  | wrap note w x ih =>
    rw [valid.spent]
    exact ((ih valid.wrap.1).wrap w).withoutMixedPaths
  | pair note op x y ihX ihY =>
    rw [valid.spent]
    exact ((ihX valid.pair.1).pair (ihY valid.pair.2.1) op).withoutMixedPaths
  | andOr note x y z ihX ihY ihZ =>
    obtain ⟨validX, validY, validZ, _⟩ := valid.andOr
    rw [valid.spent]
    exact ((ihX validX).andOr (ihY validY) (ihZ validZ)).withoutMixedPaths
  | thresh note k items ih =>
    rw [valid.spent]
    refine (Budget.covers_threshold (List.forall_mem_map.mpr fun x member => ih x member
      (valid.thresh.1 x member)) (List.forall_mem_map.mpr fun x member => ?_)).withoutMixedPaths
    have validX := valid.thresh.1 x member
    exact (ih x member validX).dissat
      ⟨.free, rfl, validX.allows_free (valid.dissatisfiable_thresh.1 x member)⟩

/-- Where a condition has a bound on its satisfactions, some transaction can meet their locks. -/
theorem isSome_sat_iff (valid : Validated context t) :
    t.budget.sat.isSome = true ↔ t.budget.lockPaths.sat.Meetable := by
  refine ⟨fun bounded => valid.unmixed.1.exists_allows ?_, valid.covers.sat⟩
  rw [valid.spent] at bounded ⊢
  exact Budget.isInhabited_ofFragment.1 bounded

end Typed.Validated

/-- A search with all signatures and secrets for a condition, for a transaction that meets all locks of
the allowed kinds. -/
structure Search.Supplies {κ : Type} [PublicKey κ] (search : Search κ) (allowed : LockKinds)
    (t : Typed κ Digest) : Prop where
  signed : ∀ key ∈ t.keys,
    (search.material.signature? search.scheme search.leafHash key).isSome = true
  revealed : t.Revealed search.material
  older : ∀ lock, (LockKinds.ofRelative lock).Within allowed → search.material.meetsOlder lock = true
  after : ∀ lock, (LockKinds.ofAbsolute lock).Within allowed → search.material.meetsAfter lock = true

theorem Search.Supplies.child {κ : Type} [PublicKey κ] {search : Search κ} {allowed : LockKinds}
    {t x : Typed κ Digest} (supplied : search.Supplies allowed t) (member : x ∈ t.children) :
    search.Supplies allowed x where
  signed key own := by
    refine supplied.signed key ?_
    rw [Condition.keys_eq]
    exact List.mem_append_right _ (List.mem_flatMap.mpr ⟨x, member, own⟩)
  revealed := ((Condition.all_iff ..).mp supplied.revealed).2 x member
  older := supplied.older
  after := supplied.after

namespace Typed.Validated

variable {κ : Type} [PublicKey κ] {context : Context} {t : Typed κ Digest} {search : Search κ}
  {allowed : LockKinds} {answer : Bool} {taken : List Bytes}

/-- A candidate needs no other locks than the transaction meets. -/
theorem allows_of_candidate (unmixed : allowed.isMixed = false)
    (older : ∀ lock, search.material.meetsOlder lock = true → (LockKinds.ofRelative lock).Within allowed)
    (after : ∀ lock, search.material.meetsAfter lock = true → (LockKinds.ofAbsolute lock).Within allowed)
    (valid : Validated context t) (candidate : t.Candidates search.ofLeaf true taken) :
    t.budget.lockPaths.sat.Allows allowed := by
  induction t using Typed.induct generalizing taken with
  | leaf note l =>
    rw [Condition.candidates_leaf] at candidate
    change note.budget.lockPaths.sat.Allows allowed
    rw [valid.lockPaths_leaf]
    have met {met : Bool} (found : (search.lock met).sat.witness = .stack taken.reverse) : met = true := by
      by_contra missing
      rw [Search.lock, if_neg missing] at found
      split at found <;> cases found
    cases l with
    | one | key k | keyHash k | digest d | multi ks | multiA ks => exact LockSet.allows_free
    | zero => cases candidate
    | after lock => exact LockSet.allows_single (after lock (met candidate))
    | older lock => exact LockSet.allows_single (older lock (met candidate))
  | wrap note w x ih =>
    rw [Condition.candidates_wrap] at candidate
    change note.budget.lockPaths.sat.Allows allowed
    rw [valid.lockPaths_wrap]
    cases w with
    | alt | swap | check | zeroNotEqual | nonzero => exact ih valid.wrap.1 candidate
    | dupIf =>
      obtain ⟨rest, _, candidate⟩ := candidate
      exact ih valid.wrap.1 candidate
    | verify => exact ih valid.wrap.1 candidate.2
  | pair note op x y ihX ihY =>
    obtain ⟨validX, validY, _⟩ := valid.pair
    obtain ⟨mayX, mayY⟩ := valid.dissatisfiable_of_pair
    rw [Condition.candidates_pair] at candidate
    change note.budget.lockPaths.sat.Allows allowed
    rw [valid.lockPaths_pair]
    cases op with
    | andV | andB =>
      obtain ⟨upper, lower, rfl, left, right⟩ := candidate
      exact (ihX validX left).join (ihY validY right) unmixed
    | orB =>
      obtain ⟨upper, lower, rfl, _, right⟩ | ⟨upper, lower, rfl, left, _⟩ := candidate
      · exact .union_right ((validX.allows_free (mayX (by simp))).of_free.join (ihY validY right) unmixed)
      · exact .union_left ((ihX validX left).join (validY.allows_free (mayY rfl)).of_free unmixed)
    | orD =>
      obtain ⟨_, left⟩ | ⟨upper, lower, rfl, _, right⟩ := candidate
      · exact (ihX validX left).union_left
      · exact .union_right ((validX.allows_free (mayX (by simp))).of_free.join (ihY validY right) unmixed)
    | orC =>
      obtain ⟨_, left | ⟨upper, lower, rfl, _, right⟩⟩ := candidate
      · exact (ihX validX left).union_left
      · exact .union_right ((validX.allows_free (mayX (by simp))).of_free.join (ihY validY right) unmixed)
    | orI =>
      obtain ⟨rest, ⟨rfl, left⟩ | ⟨rfl, right⟩⟩ := candidate
      · exact (ihX validX left).union_left
      · exact (ihY validY right).union_right
  | andOr note x y z ihX ihY ihZ =>
    obtain ⟨validX, validY, validZ, _⟩ := valid.andOr
    rw [Condition.candidates_andOr] at candidate
    change note.budget.lockPaths.sat.Allows allowed
    rw [valid.lockPaths_andOr]
    obtain ⟨_, upper, lower, rfl, left, right⟩ | ⟨upper, lower, rfl, _, right⟩ := candidate
    · exact .union_left ((ihX validX left).join (ihY validY right) unmixed)
    · exact .union_right ((validX.allows_free valid.dissatisfiable_andOr.1).of_free.join
        (ihZ validZ right) unmixed)
  | thresh note k items ih =>
    rw [Condition.candidates_thresh] at candidate
    change note.budget.lockPaths.sat.Allows allowed
    rw [valid.lockPaths_thresh]
    obtain ⟨parts, found, rfl, count⟩ := candidate
    rw [List.forall₂_map_left_iff] at found
    refine (LockPaths.allows_byCount_iff unmixed).mpr ⟨parts.map Prod.fst, ?_, ?_⟩
    · rw [List.countP_map]
      exact count
    · rw [List.forall₂_map_left_iff, List.forall₂_map_right_iff]
      refine forall₂_imp_of_mem (fun x member part _ candidate => ?_) found
      have validX := valid.thresh.1 x member
      obtain ⟨answer, taken⟩ := part
      cases answer with
      | false => exact (validX.allows_free (valid.dissatisfiable_thresh.1 x member)).of_free
      | true => exact ih x member validX candidate

private theorem exists_candidate_leaf {note : Attributes} {l : Leaf κ Digest}
    (supplied : search.Supplies allowed (.leaf note l : Typed κ Digest))
    (allows : ((Budget.ofLeaf context l : Budget Word).lockPaths.pick answer).Allows allowed) :
    ∃ taken, Candidates.ofLeaf (search.ofLeaf l) answer taken := by
  have stack {w : Witness} (found : ∃ items, w = .stack items) :
      ∃ taken : List Bytes, w = .stack taken.reverse := by
    obtain ⟨items, rfl⟩ := found
    exact ⟨items.reverse, by rw [List.reverse_reverse]⟩
  have signed := supplied.signed
  rw [Condition.keys_leaf] at signed
  have signature {key : κ} (member : key ∈ l.keys) : ∃ s, search.signature key = .stack [s] := by
    obtain ⟨s, found⟩ := Option.isSome_iff_exists.mp (signed key member)
    exact ⟨s, by rw [Search.signature, found]⟩
  refine stack ?_
  cases answer with
  | false =>
    cases l with
    | one | after lock | older lock => exact absurd allows LockSet.not_allows_empty
    | zero | key k | keyHash k | digest d | multi ks | multiA ks => exact ⟨_, rfl⟩
  | true =>
    cases l with
    | one => exact ⟨_, rfl⟩
    | zero => exact absurd allows LockSet.not_allows_empty
    | key k =>
      obtain ⟨s, found⟩ := signature (List.mem_singleton.mpr rfl)
      exact ⟨_, found⟩
    | keyHash k =>
      obtain ⟨s, found⟩ := signature (List.mem_singleton.mpr rfl)
      exact ⟨_, congrArg (Witness.below · _) found⟩
    | after lock =>
      have met := supplied.after lock (LockSet.allows_single_iff.mp allows)
      exact ⟨[], if_pos met⟩
    | older lock =>
      have met := supplied.older lock (LockSet.allows_single_iff.mp allows)
      exact ⟨[], if_pos met⟩
    | digest d =>
      have revealed := supplied.revealed
      rw [Condition.Revealed, Condition.all_leaf] at revealed
      obtain ⟨secret, known⟩ := Option.isSome_iff_exists.mp revealed
      refine ⟨[secret.toList], ?_⟩
      change search.secret d = _
      rw [Search.secret, known]
    | multi ks =>
      have all : (ks.items.filterMap
          (search.material.signature? search.scheme search.leafHash)).length = ks.items.length :=
        List.filterMap_length_eq_length.mpr signed
      have enough := Nat.not_lt.mpr (all ▸ ks.k_le)
      exact ⟨_, congrArg Satisfaction.witness (if_neg enough)⟩
    | multiA ks =>
      have enough : ks.k ≤ (ks.items.reverse.map
          (search.material.signature? search.scheme search.leafHash)).countP Option.isSome := by
        rw [List.map_reverse, List.countP_reverse, List.countP_map]
        exact ks.k_le.trans_eq (List.countP_eq_length.mpr signed).symm
      obtain ⟨items, found⟩ := exists_fillSlots? enough
      refine ⟨items, ?_⟩
      change (search.multiA ks.k ks.items).sat.witness = _
      simp only [Search.multiA, found]

private theorem exists_parts {rels : List AnswerRel} {marks : List Bool}
    (each : List.Forall₂ (fun rel mark => ∃ taken, rel mark taken) rels marks) :
    ∃ parts : List (Bool × List Bytes), List.Forall₂ (fun rel part => rel part.1 part.2) rels parts ∧
      parts.map Prod.fst = marks := by
  induction each with
  | nil => exact ⟨[], .nil, rfl⟩
  | @cons _ mark _ _ head _ ih =>
    obtain ⟨taken, found⟩ := head
    obtain ⟨parts, rest, same⟩ := ih
    exact ⟨(mark, taken) :: parts, .cons found rest, congrArg (mark :: ·) same⟩

section Served

variable {x y z : Budget Word} {relX relY relZ : AnswerRel}

/-- There is something for every answer whose locks are met. -/
private def Served (allowed : LockKinds) (budget : Budget Word) (rel : AnswerRel) : Prop :=
  ∀ answer, (budget.lockPaths.pick answer).Allows allowed → ∃ taken, rel answer taken

private theorem Served.wrap (served : Served allowed x relX) (w : Wrapper) :
    Served allowed (Budget.wrap w x) (Candidates.wrap w relX) := by
  intro answer allows
  cases w with
  | alt | swap | check | zeroNotEqual => exact served answer allows
  | dupIf =>
    cases answer with
    | false => exact ⟨_, rfl⟩
    | true =>
      obtain ⟨rest, found⟩ := served true allows
      exact ⟨_, rest, rfl, found⟩
  | verify =>
    cases answer with
    | false => exact absurd allows LockSet.not_allows_empty
    | true =>
      obtain ⟨taken, found⟩ := served true allows
      exact ⟨taken, rfl, found⟩
  | nonzero =>
    cases answer with
    | false => exact ⟨_, rfl⟩
    | true => exact served true allows

/-- The locks of two answers together are met if those of each are. -/
private theorem Served.both (unmixed : allowed.isMixed = false) (first : Served allowed x relX)
    (second : Served allowed y relY) {a b : Bool}
    (allows : ((x.lockPaths.pick a).join (y.lockPaths.pick b)).Allows allowed) :
    ∃ taken, AnswerRel.Both relX relY a b taken := by
  obtain ⟨left, right⟩ := (LockSet.allows_join_iff unmixed).mp allows
  obtain ⟨upper, foundX⟩ := first a left
  obtain ⟨lower, foundY⟩ := second b right
  exact ⟨_, upper, lower, rfl, foundX, foundY⟩

private theorem Served.pair (unmixed : allowed.isMixed = false) (first : Served allowed x relX)
    (second : Served allowed y relY) (op : Connective) :
    Served allowed (Budget.pair op x y) (Candidates.pair op relX relY) := by
  intro answer allows
  have both {a b : Bool} := first.both unmixed second (a := a) (b := b)
  cases op with
  | andV =>
    cases answer with
    | false => exact absurd allows LockSet.not_allows_empty
    | true => exact both (a := true) (b := true) allows
  | andB => cases answer <;> exact both allows
  | orB =>
    cases answer with
    | false => exact both (a := false) (b := false) allows
    | true =>
      obtain allows | allows := LockSet.allows_union_iff.mp allows
      · exact (both (a := true) (b := false) allows).imp fun _ => .inr
      · exact (both (a := false) (b := true) allows).imp fun _ => .inl
  | orD =>
    cases answer with
    | false => exact (both (a := false) (b := false) allows).imp fun _ => .inr
    | true =>
      obtain allows | allows := LockSet.allows_union_iff.mp allows
      · exact (first true allows).imp fun _ found => .inl ⟨rfl, found⟩
      · exact (both (a := false) (b := true) allows).imp fun _ => .inr
  | orC =>
    cases answer with
    | false => exact absurd allows LockSet.not_allows_empty
    | true =>
      obtain allows | allows := LockSet.allows_union_iff.mp allows
      · exact (first true allows).imp fun _ found => ⟨rfl, .inl found⟩
      · exact (both (a := false) (b := true) allows).imp fun _ found => ⟨rfl, .inr found⟩
  | orI =>
    have either : (x.lockPaths.pick answer).Allows allowed ∨ (y.lockPaths.pick answer).Allows allowed := by
      cases answer <;> exact LockSet.allows_union_iff.mp allows
    obtain allows | allows := either
    · obtain ⟨rest, found⟩ := first answer allows
      exact ⟨_, rest, .inl ⟨rfl, found⟩⟩
    · obtain ⟨rest, found⟩ := second answer allows
      exact ⟨_, rest, .inr ⟨rfl, found⟩⟩

private theorem Served.andOr (unmixed : allowed.isMixed = false) (first : Served allowed x relX)
    (second : Served allowed y relY) (third : Served allowed z relZ) :
    Served allowed (Budget.andOr x y z) (Candidates.andOr relX relY relZ) := by
  intro answer allows
  have other {answer : Bool} (allows : (x.lockPaths.dissat.join (z.lockPaths.pick answer)).Allows allowed) :
      ∃ taken, Candidates.andOr relX relY relZ answer taken :=
    (first.both unmixed third (a := false) allows).imp fun _ => .inr
  cases answer with
  | false => exact other allows
  | true =>
    obtain allows | allows := LockSet.allows_union_iff.mp allows
    · exact (first.both unmixed second (a := true) (b := true) allows).imp fun _ found => .inl ⟨rfl, found⟩
    · exact other allows

private theorem served_threshold (unmixed : allowed.isMixed = false) {budgets : List (Budget Word)}
    {rels : List AnswerRel} (each : List.Forall₂ (Served allowed) budgets rels) (k : Nat) :
    Served allowed (Budget.threshold k budgets) (Candidates.threshold k rels) := by
  intro answer allows
  have counted : ((LockPaths.byCount (budgets.map Budget.lockPaths)).getD
      (if answer then k else 0) .empty).Allows allowed := by
    cases answer <;> exact allows
  obtain ⟨marks, same, met⟩ := (LockPaths.allows_byCount_iff unmixed).mp counted
  rw [List.forall₂_map_left_iff] at met
  have found : List.Forall₂ (fun rel mark => ∃ taken, rel mark taken) rels marks := by
    clear allows counted same
    induction each generalizing marks with
    | nil =>
      cases met
      exact .nil
    | cons head _ ih =>
      obtain _ | ⟨allows, met⟩ := met
      exact .cons (head _ allows) (ih _ met)
  obtain ⟨parts, answers, rfl⟩ := exists_parts found
  exact ⟨_, parts, answers, rfl, by rw [List.countP_map] at same; exact same⟩

end Served

/-- With all signatures, secrets and locks there is a candidate for every answer that can be given. -/
theorem exists_candidate (unmixed : allowed.isMixed = false) (valid : Validated context t)
    (supplied : search.Supplies allowed t)
    (allows : (t.budget.lockPaths.pick answer).Allows allowed) :
    ∃ taken, t.Candidates search.ofLeaf answer taken := by
  suffices Served allowed t.budget (t.Candidates search.ofLeaf) from this answer allows
  clear allows
  have served {budget budget' : Budget Word} {rel : AnswerRel} (same : budget.lockPaths = budget'.lockPaths)
      (served : Served allowed budget' rel) : Served allowed budget rel := by
    rwa [Served, same]
  induction t using Typed.induct with
  | leaf note l =>
    rw [Condition.candidates_leaf]
    exact served valid.lockPaths_leaf fun _ => exists_candidate_leaf supplied
  | wrap note w x ih =>
    rw [Condition.candidates_wrap]
    exact served valid.lockPaths_wrap ((ih valid.wrap.1 (supplied.child (.head _))).wrap w)
  | pair note op x y ihX ihY =>
    obtain ⟨validX, validY, _⟩ := valid.pair
    rw [Condition.candidates_pair]
    exact served valid.lockPaths_pair ((ihX validX (supplied.child (.head _))).pair unmixed
      (ihY validY (supplied.child (.tail _ (.head _)))) op)
  | andOr note x y z ihX ihY ihZ =>
    obtain ⟨validX, validY, validZ, _⟩ := valid.andOr
    rw [Condition.candidates_andOr]
    exact served valid.lockPaths_andOr ((ihX validX (supplied.child (.head _))).andOr unmixed
      (ihY validY (supplied.child (.tail _ (.head _))))
      (ihZ validZ (supplied.child (.tail _ (.tail _ (.head _))))))
  | thresh note k items ih =>
    rw [Condition.candidates_thresh]
    have same : note.budget.lockPaths = (Budget.threshold k (items.map budget)).lockPaths :=
      (congrArg (·.lockPaths) valid.spent :)
    refine served same (served_threshold unmixed ?_ k)
    rw [List.forall₂_map_left_iff, List.forall₂_map_right_iff, List.forall₂_same]
    exact fun x member => ih x member (valid.thresh.1 x member) (supplied.child member)

/-- Whatever is found for a transaction that meets no mixed locks, the budget has a bound on it. -/
theorem isSome_sat_of_satisfy {policy : Policy} {material : Material κ} {witness : List Bytes}
    (valid : Validated context t) (consistent : material.Consistent)
    (found : t.satisfy context policy material = .ok witness) : t.budget.sat.isSome = true := by
  obtain ⟨allowed, unmixed, older, after⟩ := consistent.exists_allowed
  have candidate := ((t.search context policy material).gives_candidates t).sat witness
    (satisfy_eq_ok.mp found)
  exact valid.isSome_sat_iff.mpr
    ⟨allowed, unmixed, valid.allows_of_candidate unmixed older after candidate⟩

/-- Why a search fails is decided by the budget alone. -/
theorem satisfy_eq_error {policy : Policy} {material : Material κ} {error : SatisfyError}
    (failed : t.satisfy context policy material = .error error) :
    error = if t.budget.sat.isNone then .unsatisfiable else .missingMaterial := by
  unfold Typed.satisfy at failed
  simp only at failed
  split at failed
  · cases failed
  · exact (Except.error.inj failed).symm
  · exact (Except.error.inj failed).symm

end Typed.Validated

/-- The oldest output meets every relative lock of one unit. -/
theorem RelativeLock.metBy_longest (lock : RelativeLock) :
    lock.metBy (if lock.isTime then 0x40FFFF else 0xFFFF) = true := by
  have low : lock.interval.2 ≤ 0xFFFF := Nat.le_of_lt_succ (Nat.mod_lt _ (by decide))
  have blocks : Sequence.relativeLock? 0xFFFF = some (.blocks, 0xFFFF) := by decide
  have time : Sequence.relativeLock? 0x40FFFF = some (.time, 0xFFFF) := by decide
  cases unit : lock.isTime <;> simp [metBy, blocks, time, interval, unit] <;> exact low

/-- The latest lock time of a unit meets every absolute lock of that unit. -/
theorem AbsoluteLock.metBy_latest (lock : AbsoluteLock) :
    lock.metBy (if lock.isTime then 0x80000000 else timeThreshold - 1) = true := by
  have bounded := lock.bounded
  cases unit : lock.isHeight with
  | true =>
    have below : lock.value < timeThreshold := of_decide_eq_true unit
    simp [metBy, isTime, unit, timeThreshold] at below ⊢
    omega
  | false => simpa [metBy, isTime, unit, timeThreshold] using bounded

/-- A sequence and a lock time that meet all locks of the allowed kinds. -/
theorem LockKinds.exists_transaction {allowed : LockKinds} (unmixed : allowed.isMixed = false) :
    ∃ (sequence : Sequence) (lockTime : Nat), sequence < 2 ^ 32 ∧ lockTime < 2 ^ 32 ∧
      (∀ lock : RelativeLock, (ofRelative lock).Within allowed → lock.metBy sequence = true) ∧
      ∀ lock : AbsoluteLock, (ofAbsolute lock).Within allowed → lock.metBy lockTime = true := by
  refine ⟨if allowed.olderTime then 0x40FFFF else 0xFFFF,
    if allowed.afterTime then 0x80000000 else AbsoluteLock.timeThreshold - 1,
    by split <;> decide, by split <;> decide, fun lock within => ?_, fun lock within => ?_⟩
  · have same : allowed.olderTime = lock.isTime := by
      obtain ⟨height, time, _⟩ := within_iff.mp within
      cases unit : lock.isTime <;> simp_all [isMixed, ofRelative, RelativeLock.isHeight]
    rw [same]
    exact lock.metBy_longest
  · have same : allowed.afterTime = lock.isTime := by
      obtain ⟨_, _, height, time⟩ := within_iff.mp within
      cases unit : lock.isHeight <;> simp_all [isMixed, ofAbsolute, AbsoluteLock.isTime]
    rw [same]
    exact lock.metBy_latest

/-- A sequence meets relative locks of one unit only. -/
theorem RelativeLock.isTime_eq_of_metBy {lock lock' : RelativeLock} {sequence : Sequence}
    (met : lock.metBy sequence = true) (met' : lock'.metBy sequence = true) :
    lock.isTime = lock'.isTime := by
  simp only [RelativeLock.metBy] at met met'
  cases unit : sequence.relativeLock? with
  | none => simp [unit] at met
  | some pair =>
    simp only [unit, Bool.and_eq_true, beq_iff_eq, RelativeLock.interval] at met met'
    have same := met.1.trans met'.1.symm
    cases time : lock.isTime <;> cases time' : lock'.isTime <;> simp [time, time'] at same ⊢

/-- A lock time meets absolute locks of one unit only. -/
theorem AbsoluteLock.isTime_eq_of_metBy {lock lock' : AbsoluteLock} {lockTime : Nat}
    (met : lock.metBy lockTime = true) (met' : lock'.metBy lockTime = true) :
    lock.isTime = lock'.isTime := by
  simp only [AbsoluteLock.metBy, Bool.and_eq_true, beq_iff_eq] at met met'
  rw [AbsoluteLock.isTime, AbsoluteLock.isTime, met.1, met'.1]

/-- One of the maps that material is put together of. -/
inductive Source (κ : Type) where
  | ecdsa (entries : List (κ × Bytes))
  | schnorr (entries : List ((κ × LeafHash) × Bytes))
  | secrets (entries : List (Digest × Secret))
  | sequence (sequence : Sequence)
  | lockTime (lockTime : Nat)

namespace Source

variable {κ : Type}

/-- What a map holds. -/
def material [DecidableEq κ] : Source κ → Material κ
  | ecdsa entries => .ofEcdsa entries
  | schnorr entries => .ofSchnorr entries
  | secrets entries => .ofSecrets entries
  | sequence number => .ofSequence number
  | lockTime number => .ofLockTime number

def isSequence : Source κ → Bool
  | sequence _ => true
  | _ => false

def isLockTime : Source κ → Bool
  | lockTime _ => true
  | _ => false

variable [DecidableEq κ] {source : Source κ}

theorem isSequence_of_meetsOlder {lock : RelativeLock} (met : source.material.meetsOlder lock = true) :
    source.isSequence = true := by
  cases source with
  | sequence => rfl
  | ecdsa | schnorr | secrets | lockTime => cases met

theorem isLockTime_of_meetsAfter {lock : AbsoluteLock} (met : source.material.meetsAfter lock = true) :
    source.isLockTime = true := by
  cases source with
  | lockTime => rfl
  | ecdsa | schnorr | secrets | sequence => cases met

theorem consistent (source : Source κ) : source.material.Consistent := by
  cases source with
  | ecdsa | schnorr | secrets => exact ⟨nofun, nofun⟩
  | sequence => exact ⟨fun _ _ => RelativeLock.isTime_eq_of_metBy, nofun⟩
  | lockTime => exact ⟨nofun, fun _ _ => AbsoluteLock.isTime_eq_of_metBy⟩

end Source

/-- If at most one item is of a kind, then two properties of this kind belong to the same item. -/
theorem exists_of_any_of_countP_le_one {α : Type} {kind p q : α → Bool} {items : List α}
    (single : items.countP kind ≤ 1) (left : ∀ x, p x = true → kind x = true)
    (right : ∀ x, q x = true → kind x = true) (some : items.any p = true) (some' : items.any q = true) :
    ∃ x ∈ items, p x = true ∧ q x = true := by
  obtain ⟨x, member, holds⟩ := List.any_eq_true.mp some
  obtain ⟨y, member', holds'⟩ := List.any_eq_true.mp some'
  have listed : x ∈ items.filter kind := List.mem_filter.mpr ⟨member, left x holds⟩
  have listed' : y ∈ items.filter kind := List.mem_filter.mpr ⟨member', right y holds'⟩
  rw [List.countP_eq_length_filter] at single
  obtain ⟨only, same⟩ := List.length_eq_one_iff.mp
    (Nat.le_antisymm single (List.length_pos_of_mem listed))
  rw [same, List.mem_singleton] at listed listed'
  subst listed listed'
  exact ⟨_, member, holds, holds'⟩

namespace Material

variable {κ : Type}

theorem meetsOlder_firstOf (materials : List (Material κ)) (lock : RelativeLock) :
    (firstOf materials).meetsOlder lock = materials.any (·.meetsOlder lock) := by
  induction materials with
  | nil => rfl
  | cons first rest ih => exact congrArg (first.meetsOlder lock || ·) ih

theorem meetsAfter_firstOf (materials : List (Material κ)) (lock : AbsoluteLock) :
    (firstOf materials).meetsAfter lock = materials.any (·.meetsAfter lock) := by
  induction materials with
  | nil => rfl
  | cons first rest ih => exact congrArg (first.meetsAfter lock || ·) ih

/-- Material that is put together with at most one sequence and one lock time meets no height together with a
time for one lock. -/
theorem consistent_firstOf [DecidableEq κ] {sources : List (Source κ)}
    (single : sources.countP Source.isSequence ≤ 1) (single' : sources.countP Source.isLockTime ≤ 1) :
    (firstOf (sources.map Source.material)).Consistent := by
  constructor
  · intro lock lock' met met'
    rw [meetsOlder_firstOf, List.any_map] at met met'
    obtain ⟨source, _, met, met'⟩ := exists_of_any_of_countP_le_one single
      (fun _ => Source.isSequence_of_meetsOlder) (fun _ => Source.isSequence_of_meetsOlder) met met'
    exact source.consistent.older lock lock' met met'
  · intro lock lock' met met'
    rw [meetsAfter_firstOf, List.any_map] at met met'
    obtain ⟨source, _, met, met'⟩ := exists_of_any_of_countP_le_one single'
      (fun _ => Source.isLockTime_of_meetsAfter) (fun _ => Source.isLockTime_of_meetsAfter) met met'
    exact source.consistent.after lock lock' met met'

/-- The same signatures and secrets for a transaction with a sequence and a lock time. -/
def spentWith (material : Material κ) (sequence : Sequence) (lockTime : Nat) : Material κ :=
  { material with meetsOlder := (·.metBy sequence), meetsAfter := (·.metBy lockTime) }

/-- No transaction meets a height together with a time for one lock. -/
theorem consistent_spentWith (material : Material κ) (sequence : Sequence) (lockTime : Nat) :
    (material.spentWith sequence lockTime).Consistent :=
  ⟨fun _ _ => RelativeLock.isTime_eq_of_metBy, fun _ _ => AbsoluteLock.isTime_eq_of_metBy⟩

end Material

namespace Typed

variable {κ : Type} [PublicKey κ] {context : Context} {t : Typed κ Digest}

/-- Material with a signature by every key of a condition, and with every secret. -/
structure Equips (context : Context) (t : Typed κ Digest) (material : Material κ) : Prop where
  signed : ∀ key ∈ t.keys,
    (material.signature? context.scheme (t.leafHash context) key).isSome = true
  revealed : t.Revealed material

/-- With a bound on its satisfactions, a condition is satisfied in some transaction by whoever has all
signatures and secrets. -/
theorem Validated.exists_spentWith (valid : Validated context t) (bounded : t.budget.sat.isSome = true) :
    ∃ (sequence : Sequence) (lockTime : Nat), sequence < 2 ^ 32 ∧ lockTime < 2 ^ 32 ∧
      ∀ material : Material κ, t.Equips context material →
        ∃ witness, t.satisfy context .malleable (material.spentWith sequence lockTime) = .ok witness := by
  obtain ⟨allowed, unmixed, allows⟩ := valid.isSome_sat_iff.mp bounded
  obtain ⟨sequence, lockTime, small, small', older, after⟩ := LockKinds.exists_transaction unmixed
  refine ⟨sequence, lockTime, small, small', fun material equips => ?_⟩
  have supplied : (t.search context .malleable (material.spentWith sequence lockTime)).Supplies allowed t :=
    ⟨equips.signed, equips.revealed, older, after⟩
  have candidate := valid.exists_candidate unmixed supplied
    (show (t.budget.lockPaths.pick true).Allows allowed from allows)
  exact valid.satisfy_malleable_least.1.mpr candidate

/-- Any tree can be equipped; the search does not look into signatures and secrets. -/
theorem exists_equips (context : Context) (t : Typed κ Digest) :
    ∃ material : Material κ, t.Equips context material := by
  refine ⟨⟨fun _ => some [], fun _ _ => some [], fun _ => some (Vector.replicate 32 0), fun _ => false,
    fun _ => false⟩, fun key _ => ?_, fun x _ => ?_⟩
  · cases context.scheme <;> rfl
  · dsimp only
    split <;> trivial

/-- A condition without a bound on its satisfactions is satisfied in no transaction. With a bound, there
is a transaction in which all signatures and secrets are enough. So where the search reports that
material is missing, other material makes it succeed. What no transaction does is to meet a height together
with a time; material that is put together with one sequence and one lock time never does. -/
theorem Validated.unsatisfiable_exact (valid : Validated context t) :
    (t.budget.sat = none → ∀ (policy : Policy) (material : Material κ), material.Consistent →
      t.satisfy context policy material = .error .unsatisfiable) ∧
    (∀ usage, t.budget.sat = some usage → (∃ material : Material κ, t.Equips context material) ∧
      ∃ (sequence : Sequence) (lockTime : Nat), sequence < 2 ^ 32 ∧ lockTime < 2 ^ 32 ∧
        ∀ material : Material κ, t.Equips context material →
          (material.spentWith sequence lockTime).Consistent ∧
          ∃ witness, t.satisfy context .malleable (material.spentWith sequence lockTime) = .ok witness) ∧
    (∀ (policy : Policy) (material : Material κ),
      t.satisfy context policy material = .error .missingMaterial →
      ∃ other : Material κ, other.Consistent ∧
        ∃ witness, t.satisfy context .malleable other = .ok witness) ∧
    ∀ [DecidableEq κ] (sources : List (Source κ)), sources.countP Source.isSequence ≤ 1 →
      sources.countP Source.isLockTime ≤ 1 →
        (Material.firstOf (sources.map Source.material)).Consistent := by
  refine ⟨fun unbounded policy material consistent => ?_, fun usage bounded => ?_,
    fun policy material failed => ?_, fun sources single single' => Material.consistent_firstOf single single'⟩
  · cases found : t.satisfy context policy material with
    | ok witness =>
      have bounded := valid.isSome_sat_of_satisfy consistent found
      rw [unbounded] at bounded
      cases bounded
    | error error => rw [satisfy_eq_error found, unbounded]; rfl
  · obtain ⟨sequence, lockTime, small, small', succeeds⟩ := valid.exists_spentWith (bounded ▸ rfl)
    exact ⟨exists_equips context t, sequence, lockTime, small, small', fun material equips =>
      ⟨material.consistent_spentWith sequence lockTime, succeeds material equips⟩⟩
  · have bounded : t.budget.sat.isSome = true := by
      have reason := satisfy_eq_error failed
      cases found : t.budget.sat with
      | none =>
        rw [found] at reason
        cases reason
      | some usage => rfl
    obtain ⟨sequence, lockTime, _, _, succeeds⟩ := valid.exists_spentWith bounded
    obtain ⟨material, equips⟩ := exists_equips context t
    exact ⟨_, material.consistent_spentWith sequence lockTime, succeeds material equips⟩

/-- Two lock times that are needed together: `and_v(v:after(first),after(second))`. -/
def twoLocks (context : Context) (first second : AbsoluteLock) : Typed κ Digest :=
  ofFragment context (.pair .andV
    (ofFragment context (.wrap .verify (ofFragment context (.leaf (.after first)))))
    (ofFragment context (.leaf (.after second))))

theorem validated_twoLocks (first second : AbsoluteLock) :
    Validated context (twoLocks context first second : Typed κ Digest) := by
  have composed {fragment : Fragment κ Digest (Typed κ Digest)} (fits : composes context fragment = true)
      (below : ∀ x ∈ fragment.children, Validated context x) := validated_ofFragment fits below
  have lock (l : AbsoluteLock) : Validated context (ofFragment context (.leaf (.after l)) : Typed κ Digest) :=
    composed rfl nofun
  exact composed rfl (List.forall_mem_cons.mpr
    ⟨composed rfl (List.forall_mem_singleton.mpr (lock first)), List.forall_mem_singleton.mpr (lock second)⟩)

/-- No transaction meets a height together with a time, and some transaction meets two heights. -/
theorem Validated.unsatisfiable_exact_twoLocks : ∃ (t u : Typed PointKey Digest)
      (sources : List (Source PointKey)),
    Validated .segwit t ∧ t.budget.sat = none ∧
      sources.countP Source.isSequence = 1 ∧ sources.countP Source.isLockTime = 1 ∧
      t.satisfy .segwit .malleable (.firstOf (sources.map Source.material)) = .error .unsatisfiable ∧
    Validated .segwit u ∧ u.budget.sat.isSome = true ∧
      u.satisfy .segwit .malleable (.none : Material PointKey) = .error .missingMaterial ∧
      ∃ other : Material PointKey, other.Consistent ∧
        ∃ witness, u.satisfy .segwit .malleable other = .ok witness := by
  let height : AbsoluteLock := ⟨7, by decide, by decide⟩
  let time : AbsoluteLock := ⟨500000007, by decide, by decide⟩
  let later : AbsoluteLock := ⟨9, by decide, by decide⟩
  have mixed : Validated .segwit (twoLocks .segwit height time : Typed PointKey Digest) :=
    validated_twoLocks height time
  have heights : Validated .segwit (twoLocks .segwit height later : Typed PointKey Digest) :=
    validated_twoLocks height later
  have unbounded : (twoLocks .segwit height time : Typed PointKey Digest).budget.sat = none := by
    decide +kernel
  have missing : (twoLocks .segwit height later : Typed PointKey Digest).satisfy .segwit .malleable .none =
      .error .missingMaterial := by
    decide +kernel
  obtain ⟨impossible, _, _, consistent⟩ := mixed.unsatisfiable_exact
  obtain ⟨_, _, other, _⟩ := heights.unsatisfiable_exact
  have transaction := consistent [.sequence 144, .lockTime 500000007] (by decide) (by decide)
  exact ⟨_, _, _, mixed, unbounded, by decide, by decide, impossible unbounded .malleable _ transaction, heights,
    by decide +kernel, missing, other .malleable .none missing⟩

end Typed

end LockScript
