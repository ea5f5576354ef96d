import LockScript.Proofs.LenientResults
import LockScript.Proofs.SatisfactionSize
import LockScript.Proofs.ThirdParty

/-! # Signatures that lenient runs require

A type that requires a signature is right about all runs with minimal arguments. Where any element can
be the argument of a conditional, a `d:` leaves that element, and a `thresh` that adds it up takes it for
more than one yes. No other fragment looks closer at a result than whether it is true. So the type is
still right if no threshold that requires a signature has a child that does not and may leave such an
argument.
-/

namespace LockScript

/-- Whether a fragment may leave the argument of a conditional as its result. -/
def Fragment.leavesArgument {κ δ : Type} : Fragment κ δ Bool → Bool
  | .leaf _ | .thresh _ _ => false
  | .wrap .dupIf _ => true
  | .wrap .alt x | .wrap .swap x | .wrap .nonzero x => x
  | .wrap .check _ | .wrap .verify _ | .wrap .zeroNotEqual _ => false
  | .pair .andB _ _ | .pair .orB _ _ | .pair .orC _ _ => false
  | .pair .andV _ y => y
  | .pair .orD x y | .pair .orI x y => x || y
  | .andOr _ y z => y || z

namespace Condition

variable {κ α : Type}

/-- Whether a condition may leave the argument of a conditional as its result. -/
def leavesArgument (t : Condition κ Digest α) : Bool :=
  Traversal.bottomUp (fun x items => (x.fragment.withChildren items).leavesArgument) t

theorem leavesArgument_eq (t : Condition κ Digest α) :
    t.leavesArgument = (t.fragment.map leavesArgument).leavesArgument :=
  bottomUp_fragment Fragment.leavesArgument t

@[simp] theorem leavesArgument_wrap (note : α) (w : Wrapper) (x : Condition κ Digest α) :
    (wrap note w x).leavesArgument = Fragment.leavesArgument (.wrap w x.leavesArgument : Fragment κ Digest _) :=
  leavesArgument_eq _

@[simp] theorem leavesArgument_pair (note : α) (op : Connective) (x y : Condition κ Digest α) :
    (pair note op x y).leavesArgument =
      Fragment.leavesArgument (.pair op x.leavesArgument y.leavesArgument : Fragment κ Digest _) :=
  leavesArgument_eq _

@[simp] theorem leavesArgument_andOr (note : α) (x y z : Condition κ Digest α) :
    (andOr note x y z).leavesArgument = (y.leavesArgument || z.leavesArgument) :=
  leavesArgument_eq _

end Condition

/-- No threshold that requires a signature counts the argument of a conditional among the answers that
do not. -/
def Typed.CountsAnswers {κ : Type} : Typed κ Digest → Prop :=
  Condition.All fun
    | .thresh k items => items.length - k < items.countP (fun x => (Typed.type x).malleability.safe) →
        ∀ x ∈ items, (Typed.type x).malleability.safe = false → x.leavesArgument = false
    | _ => True

namespace Evaluator

variable {κ : Type} [PublicKey κ]

/-- Whether one of the elements is a signature by one of the keys. -/
def AnySigned (e : Evaluator) (keys : List κ) (elements : List Bytes) : Prop :=
  ∃ element ∈ elements, e.SignedBy keys element

theorem AnySigned.mono {e : Evaluator} {keys others : List κ} {elements more : List Bytes}
    (signed : e.AnySigned keys elements) (among : ∀ element ∈ elements, element ∈ more)
    (within : ∀ key ∈ keys, key ∈ others) : e.AnySigned others more := by
  obtain ⟨element, member, signed⟩ := signed
  exact ⟨element, among element member, signed.mono within⟩

end Evaluator

namespace Typed.Validated

variable {κ : Type} [PublicKey κ] {context : Context} {e : Evaluator} {t : Typed κ Digest}
  {result : Bytes} {taken : List Bytes}

/-- Results of unit type are truth values unless they are the argument of a conditional. -/
theorem exists_eq_writeBool (valid : Validated context t) (unit : t.type.soundness.unit = true)
    (clean : t.leavesArgument = false) (run : t.Results e result taken) :
    ∃ answer, result = Bytes.writeBool answer := by
  induction t using Typed.induct generalizing result taken with
  | leaf note l =>
    change note.type.soundness.unit = true at unit
    rw [← valid.leaf.2] at unit
    rw [Condition.results_leaf] at run
    obtain ⟨answer, _, denotes⟩ := run
    rw [unit] at denotes
    exact ⟨answer, denotes.eq_writeBool⟩
  | wrap note w x ih =>
    have validX := valid.wrap.1
    change note.type.soundness.unit = true at unit
    rw [Condition.leavesArgument_wrap] at clean
    rw [Condition.results_wrap] at run
    cases w with
    | alt =>
      obtain ⟨_, same⟩ := Soundness.alt_eq_ok.mp valid.soundness_wrap
      rw [← same] at unit
      exact ih validX unit clean run
    | swap =>
      obtain ⟨_, _, same⟩ := Soundness.swap_eq_ok.mp valid.soundness_wrap
      rw [← same] at unit
      exact ih validX unit clean run
    | check => exact run.2
    | dupIf => cases clean
    | verify =>
      obtain ⟨_, same⟩ := Soundness.verify_eq_ok.mp valid.soundness_wrap
      rw [← same] at unit
      cases unit
    | nonzero =>
      obtain ⟨_, _, same⟩ := Soundness.nonzero_eq_ok.mp valid.soundness_wrap
      obtain ⟨rfl, _⟩ | run := run
      · exact ⟨false, rfl⟩
      · rw [← same] at unit
        exact ih validX unit clean run
    | zeroNotEqual =>
      obtain ⟨found, rfl, _⟩ := run
      exact ⟨_, rfl⟩
  | pair note op x y ihX ihY =>
    obtain ⟨validX, validY, _⟩ := valid.pair
    change note.type.soundness.unit = true at unit
    rw [Condition.leavesArgument_pair] at clean
    rw [Condition.results_pair] at run
    cases op with
    | andV =>
      obtain ⟨_, _, same⟩ := Soundness.andV_eq_ok.mp valid.soundness_pair
      obtain ⟨_, _, _, _, run⟩ := run
      rw [← same] at unit
      exact ihY validY unit clean run
    | andB | orB =>
      obtain ⟨_, _, _, rfl⟩ := run
      exact ⟨_, rfl⟩
    | orD =>
      obtain ⟨_, unitX, _, _, same⟩ := Soundness.orD_eq_ok.mp valid.soundness_pair
      obtain ⟨cleanX, cleanY⟩ := Bool.or_eq_false_iff.mp clean
      obtain ⟨_, run⟩ | ⟨_, _, _, _, _, _, run⟩ := run
      · exact ihX validX unitX cleanX run
      · rw [← same] at unit
        exact ihY validY unit cleanY run
    | orC =>
      obtain ⟨_, _, _, _, same⟩ := Soundness.orC_eq_ok.mp valid.soundness_pair
      rw [← same] at unit
      cases unit
    | orI =>
      obtain ⟨_, _, same⟩ := Soundness.orI_eq_ok.mp valid.soundness_pair
      rw [← same] at unit
      obtain ⟨unitX, unitY⟩ := Bool.and_eq_true_iff.mp unit
      obtain ⟨cleanX, cleanY⟩ := Bool.or_eq_false_iff.mp clean
      obtain ⟨_, _, _, run⟩ := run
      split at run
      · exact ihX validX unitX cleanX run
      · exact ihY validY unitY cleanY run
  | andOr note x y z ihX ihY ihZ =>
    obtain ⟨_, validY, validZ, _⟩ := valid.andOr
    change note.type.soundness.unit = true at unit
    rw [Condition.leavesArgument_andOr] at clean
    rw [Condition.results_andOr] at run
    obtain ⟨_, _, _, _, _, same⟩ := Soundness.andOr_eq_ok.mp valid.soundness_andOr
    rw [← same] at unit
    obtain ⟨unitY, unitZ⟩ := Bool.and_eq_true_iff.mp unit
    obtain ⟨cleanY, cleanZ⟩ := Bool.or_eq_false_iff.mp clean
    obtain ⟨_, _, _, _, _, run⟩ := run
    split at run
    · exact ihY validY unitY cleanY run
    · exact ihZ validZ unitZ cleanZ run
  | thresh note k items ih =>
    rw [Condition.results_thresh] at run
    obtain ⟨_, answer, _, _, rfl, _⟩ := run
    exact ⟨answer, rfl⟩

private theorem sum_le_countP {α β : Type} {p : α → Bool} {value : β → Int} {items : List α}
    {parts : List β} (each : List.Forall₂ (fun x part => value part ≤ if p x then 1 else 0) items parts) :
    (parts.map value).sum ≤ items.countP p := by
  induction each with
  | nil => exact Int.le_refl 0
  | cons head _ ih =>
    rw [List.map_cons, List.sum_cons, List.countP_cons]
    split at head <;> simp_all <;> omega

/-- A child that requires a signature leaves a true result if the numbers add up to `k`. The others
cannot make up for it: each counts for one at most, and there are fewer than `k` of them. -/
private theorem exists_safe_part {note : Attributes} {k : Nat} {items : List (Typed κ Digest)}
    (valid : Validated context (.thresh note k items)) (safe : note.type.malleability.safe = true)
    (counts : CountsAnswers (.thresh note k items)) {parts : List (Bytes × List Bytes)}
    (runs : List.Forall₂ (fun (x : Typed κ Digest) part => x.Results e part.1 part.2) items parts)
    (total : (parts.map fun part => part.1.signedValue).sum = k) :
    ∃ x ∈ items, ∃ part ∈ parts, x.type.malleability.safe = true ∧ part.1.isTrue = true ∧
      x.Results e part.1 part.2 := by
  obtain ⟨below, positive, bounded, _⟩ := valid.thresh
  rw [valid.malleability_thresh] at safe
  obtain ⟨_, many⟩ := of_decide_eq_true safe
  simp only [List.length_map, List.countP_map, Function.comp_def] at many
  have clean := ((Condition.all_thresh ..).mp counts).1 many
  have units : ∀ x ∈ items, x.type.soundness.unit = true := by
    obtain ⟨first, rest, rfl⟩ := List.exists_cons_of_length_pos (Nat.lt_of_lt_of_le positive bounded)
    obtain ⟨_, _, summands, _⟩ := Soundness.threshold_eq_ok.mp valid.soundness_thresh
    refine fun x member => (summands x.type.soundness ?_).1
    rw [← List.map_cons, ← List.map_cons, List.map_map]
    exact List.mem_map_of_mem member
  by_contra none
  have each : List.Forall₂ (fun (x : Typed κ Digest) (part : Bytes × List Bytes) =>
      part.1.signedValue ≤ if ¬x.type.malleability.safe = true then 1 else 0) items parts := by
    refine forall₂_imp_of_mem (fun x member part among run => ?_) runs
    split
    next other =>
      obtain ⟨answer, found⟩ := (below x member).exists_eq_writeBool (units x member)
        (clean x member (Bool.not_eq_true _ ▸ other)) run
      rw [found]
      cases answer <;> decide
    next safeX =>
      have refused : part.1.isTrue = false := by
        by_contra yes
        exact none ⟨x, member, part, among, not_not.mp safeX, Bool.not_eq_false _ ▸ yes, run⟩
      exact Int.le_of_eq (part.1.signedValue_eq_zero.mpr refused)
  have le := sum_le_countP (p := fun x : Typed κ Digest => decide ¬x.type.malleability.safe = true)
    (by simpa only [decide_eq_true_eq] using each)
  have parted := List.length_eq_countP_add_countP (fun x : Typed κ Digest => x.type.malleability.safe)
    (l := items)
  omega

section Signs

variable {note : Attributes} {x y z : Typed κ Digest}

/-- What leaves a true result has taken a signature, if the type requires one. -/
private def Signs (e : Evaluator) (t : Typed κ Digest) : Prop :=
  t.type.malleability.safe = true → ∀ ⦃result taken⦄, e.OpensOnly taken t.keys →
    t.Results e result taken → result.isTrue = true → e.AnySigned t.keys taken

/-- A signature that a part has taken is one that the whole has taken. -/
private theorem Signs.within (signs : Signs e x) (safe : x.type.malleability.safe = true) {keys : List κ}
    (opens : e.OpensOnly taken keys) (own : ∀ key ∈ x.keys, key ∈ keys) {part : List Bytes}
    (among : ∀ element ∈ part, element ∈ taken) {result : Bytes} (run : x.Results e result part)
    (yes : result.isTrue = true) : e.AnySigned keys taken :=
  (signs safe (opens.mono among own) run yes).mono among own

private theorem signs_leaf {l : Leaf κ Digest} (valid : Validated context (.leaf note l)) :
    Signs e (.leaf note l) := by
  intro safe result taken opens run yes
  change note.type.malleability.safe = true at safe
  rw [← valid.leaf.2] at safe
  rw [Condition.results_leaf] at run
  rw [Condition.keys_leaf] at opens ⊢
  obtain ⟨answer, run, denotes⟩ := run
  obtain rfl := denotes.isTrue_eq.symm.trans yes
  obtain ⟨key, own, signed⟩ :=
    Leaf.exists_signature safe (Leaf.holds_of_yes run (fun _ => id) opens)
  obtain ⟨element, member, checked⟩ := List.any_eq_true.mp signed
  exact ⟨element, member, key, own, checked⟩

private theorem Signs.wrap {w : Wrapper} (valid : Validated context (.wrap note w x))
    (below : Signs e x) : Signs e (.wrap note w x) := by
  intro safe result taken opens run yes
  change note.type.malleability.safe = true at safe
  rw [valid.malleability_wrap] at safe
  rw [Condition.results_wrap] at run
  rw [Condition.keys_wrap] at opens ⊢
  cases w with
  | alt | swap => exact below safe opens run yes
  | check => exact below safe opens run.1 yes
  | dupIf =>
    -- The child takes nothing, so there is no signature that it could have taken.
    obtain ⟨element, member, _⟩ :=
      below safe (fun _ none => absurd none List.not_mem_nil) (run.2 yes) rfl
    cases member
  | verify =>
    obtain ⟨_, found, passed, run⟩ := run
    exact below safe opens run passed
  | nonzero =>
    obtain ⟨rfl, _⟩ | run := run
    · cases yes
    · exact below safe opens run yes
  | zeroNotEqual =>
    obtain ⟨found, rfl, run⟩ := run
    rw [Bytes.isTrue_writeBool] at yes
    exact below safe opens run yes

private theorem Signs.pair {op : Connective} (valid : Validated context (.pair note op x y))
    (first : Signs e x) (second : Signs e y) : Signs e (.pair note op x y) := by
  intro safe result taken opens run yes
  change note.type.malleability.safe = true at safe
  rw [valid.malleability_pair] at safe
  rw [Condition.results_pair] at run
  rw [Condition.keys_pair] at opens ⊢
  have left (safe : x.type.malleability.safe = true) {part : List Bytes}
      (among : ∀ element ∈ part, element ∈ taken) {result : Bytes} (run : x.Results e result part) :
      result.isTrue = true → e.AnySigned (x.keys ++ y.keys) taken :=
    first.within safe opens (fun _ => List.mem_append_left y.keys) among run
  have right (safe : y.type.malleability.safe = true) {part : List Bytes}
      (among : ∀ element ∈ part, element ∈ taken) {result : Bytes} (run : y.Results e result part) :
      result.isTrue = true → e.AnySigned (x.keys ++ y.keys) taken :=
    second.within safe opens (fun _ => List.mem_append_right x.keys) among run
  cases op with
  | andV =>
    obtain ⟨upper, lower, rfl, runX, runY⟩ := run
    obtain safeX | safeY := Bool.or_eq_true_iff.mp safe
    · exact left safeX (fun _ => List.mem_append_left lower) runX rfl
    · exact right safeY (fun _ => List.mem_append_right upper) runY yes
  | andB =>
    obtain ⟨_, _, ⟨upper, lower, rfl, runX, runY⟩, rfl⟩ := run
    rw [Bytes.isTrue_writeBool] at yes
    obtain ⟨yesX, yesY⟩ := Bool.and_eq_true_iff.mp yes
    obtain safeX | safeY := Bool.or_eq_true_iff.mp safe
    · exact left safeX (fun _ => List.mem_append_left lower) runX yesX
    · exact right safeY (fun _ => List.mem_append_right upper) runY yesY
  | orB =>
    obtain ⟨safeX, safeY⟩ := Bool.and_eq_true_iff.mp safe
    obtain ⟨_, _, ⟨upper, lower, rfl, runX, runY⟩, rfl⟩ := run
    rw [Bytes.isTrue_writeBool] at yes
    obtain yesX | yesY := Bool.or_eq_true_iff.mp yes
    · exact left safeX (fun _ => List.mem_append_left lower) runX yesX
    · exact right safeY (fun _ => List.mem_append_right upper) runY yesY
  | orD =>
    obtain ⟨safeX, safeY⟩ := Bool.and_eq_true_iff.mp safe
    obtain ⟨_, runX⟩ | ⟨_, _, upper, lower, rfl, _, runY⟩ := run
    · exact left safeX (fun _ => id) runX yes
    · exact right safeY (fun _ => List.mem_append_right upper) runY yes
  | orC =>
    obtain ⟨safeX, safeY⟩ := Bool.and_eq_true_iff.mp safe
    obtain ⟨_, _, yesX, runX⟩ | ⟨_, _, upper, lower, rfl, _, runY⟩ := run
    · exact left safeX (fun _ => id) runX yesX
    · exact right safeY (fun _ => List.mem_append_right upper) runY yes
  | orI =>
    obtain ⟨safeX, safeY⟩ := Bool.and_eq_true_iff.mp safe
    obtain ⟨top, rest, rfl, run⟩ := run
    split at run
    · exact left safeX (fun _ => List.mem_cons_of_mem top) run yes
    · exact right safeY (fun _ => List.mem_cons_of_mem top) run yes

private theorem Signs.andOr (valid : Validated context (.andOr note x y z)) (first : Signs e x)
    (second : Signs e y) (third : Signs e z) : Signs e (.andOr note x y z) := by
  intro safe result taken opens run yes
  change note.type.malleability.safe = true at safe
  rw [valid.malleability_andOr] at safe
  rw [Condition.results_andOr] at run
  rw [Condition.keys_andOr] at opens ⊢
  obtain ⟨either, safeZ⟩ := Bool.and_eq_true_iff.mp safe
  obtain ⟨_, upper, lower, rfl, runX, run⟩ := run
  have above : ∀ element ∈ upper, element ∈ upper ++ lower := fun _ => List.mem_append_left lower
  have below : ∀ element ∈ lower, element ∈ upper ++ lower := fun _ => List.mem_append_right upper
  split at run
  next chosen =>
    obtain safeX | safeY := Bool.or_eq_true_iff.mp either
    · exact first.within safeX opens (fun _ own => by simp [own]) above runX chosen
    · exact second.within safeY opens (fun _ own => by simp [own]) below run yes
  next => exact third.within safeZ opens (fun _ own => by simp [own]) below run yes

private theorem signs_thresh {k : Nat} {items : List (Typed κ Digest)}
    (valid : Validated context (.thresh note k items))
    (counts : Typed.CountsAnswers (.thresh note k items))
    (each : ∀ x ∈ items, Signs e x) : Signs e (.thresh note k items) := by
  intro safe result taken opens run yes
  rw [Condition.results_thresh] at run
  rw [Condition.keys_thresh] at opens ⊢
  obtain ⟨parts, answer, runs, rfl, rfl, exact⟩ := run
  rw [Bytes.isTrue_writeBool] at yes
  rw [List.forall₂_map_left_iff] at runs
  obtain ⟨x, member, part, among, safeX, yesX, run⟩ :=
    valid.exists_safe_part safe counts runs (exact yes)
  exact (each x member).within safeX opens (fun key within => List.mem_flatMap.mpr ⟨x, member, within⟩)
    (fun element within => List.mem_flatMap.mpr ⟨part, among, within⟩) run yesX

end Signs

/-- What leaves a true result and requires a signature has taken one. -/
theorem anySigned (valid : Validated context t) (safe : t.type.malleability.safe = true)
    (counts : t.CountsAnswers) (opens : e.OpensOnly taken t.keys) (run : t.Results e result taken)
    (yes : result.isTrue = true) : e.AnySigned t.keys taken := by
  suffices Signs e t from this safe opens run yes
  clear safe opens run yes
  induction t using Typed.induct with
  | leaf note l => exact signs_leaf valid
  | wrap note w x ih => exact .wrap valid (ih valid.wrap.1 ((Condition.all_wrap ..).mp counts).2)
  | pair note op x y ihX ihY =>
    obtain ⟨validX, validY, _⟩ := valid.pair
    obtain ⟨_, countsX, countsY⟩ := (Condition.all_pair ..).mp counts
    exact .pair valid (ihX validX countsX) (ihY validY countsY)
  | andOr note x y z ihX ihY ihZ =>
    obtain ⟨validX, validY, validZ, _⟩ := valid.andOr
    obtain ⟨_, countsX, countsY, countsZ⟩ := (Condition.all_andOr ..).mp counts
    exact .andOr valid (ihX validX countsX) (ihY validY countsY) (ihZ validZ countsZ)
  | thresh note k items ih =>
    exact signs_thresh valid counts fun x member =>
      ih x member (valid.thresh.1 x member) (((Condition.all_thresh ..).mp counts).2 x member)

/-- If the encoded script of a condition accepts a witness with any elements as the arguments of its
conditionals, and the type requires a signature, then there is one by a key of the condition, unless a
threshold counts such an argument. -/
theorem signed_of_acceptsLeniently (same : e.scheme = context.scheme) (valid : Validated context t)
    (top : t.type.isTopLevel = true) (counts : t.CountsBelow (2 ^ 64)) (answers : t.CountsAnswers)
    (safe : t.requiresSignature = true) {witness : List Bytes} (opens : e.OpensOnly witness t.keys)
    (accepted : e.acceptsLeniently (t.script context).bytes witness = true) :
    ∃ signature ∈ witness, ∃ key ∈ t.keys,
      e.checkSig (PublicKey.pushed context.scheme key) signature = true := by
  have base : t.type.soundness.base = .B := beq_iff_eq.mp top
  have leaves := valid.leaves same
  simp only [Typed.Leaves, base, Evaluator.Leaves] at leaves
  rw [Evaluator.acceptsLeniently, Script.parse?_bytes (t.isShort_script context counts)] at accepted
  simp only [Evaluator.acceptsScriptLeniently] at accepted
  split at accepted
  next result _ ran =>
    obtain ⟨taken, rest, result, shape, run, left⟩ := Evaluator.LeavesTop.exec leaves ran
    obtain ⟨rfl, rfl⟩ := List.cons.inj (Stacks.mk.inj left).1
    rw [List.append_nil] at shape
    have among : ∀ element ∈ taken, element ∈ witness :=
      fun element member => List.mem_reverse.mp (shape ▸ member)
    obtain ⟨signature, member, key, own, checked⟩ :=
      valid.anySigned safe answers (opens.mono among fun _ => id) run accepted
    exact ⟨signature, among signature member, key, own, same ▸ checked⟩
  next => cases accepted

/-- Where every key signs with itself, an `or_i` accepts its first key, with that key also as its
argument. -/
theorem signed_of_acceptsLeniently_orI : ∃ (t : Typed PointKey Digest) (e : Evaluator)
    (witness : List Bytes), Validated .legacy t ∧ t.CountsAnswers ∧ t.requiresSignature = true ∧
      e.OpensOnly witness t.keys ∧ e.acceptsLeniently (t.script .legacy).bytes witness = true ∧
      ∃ signature ∈ witness, ∃ key ∈ t.keys,
        e.checkSig (PublicKey.pushed .ecdsa key) signature = true := by
  let key := pointOfByte 1
  let t : Typed PointKey Digest :=
    ofFragment .legacy (.pair .orI (pk .legacy key) (ofFragment .legacy (.leaf .zero)))
  let e : Evaluator := ⟨.ecdsa, fun key signature => key == signature, fun _ => false, fun _ => false, true⟩
  let witness := List.replicate 2 (PublicKey.pushed .ecdsa key)
  have valid : Validated .legacy t :=
    validated_ofFragment rfl (List.forall_mem_cons.mpr ⟨validated_pk rfl,
      List.forall_mem_singleton.mpr (validated_ofFragment rfl (List.forall_mem_nil _))⟩)
  have answers : t.CountsAnswers := by simp [t, CountsAnswers, pk, Fragment.children]
  have counts : t.CountsBelow (2 ^ 64) := by simp [t, Condition.CountsBelow, pk, Fragment.children]
  have keys : t.keys = [key] := by simp [t, pk, Leaf.keys, Fragment.children]
  have opens : e.OpensOnly witness t.keys := by
    intro element member other within _
    rw [keys] at within
    rw [List.eq_of_mem_replicate member, List.mem_singleton.mp within]
  have accepted : e.acceptsLeniently (t.script .legacy).bytes witness = true := by decide +kernel
  exact ⟨t, e, _, valid, answers, rfl, opens, accepted,
    valid.signed_of_acceptsLeniently rfl rfl counts answers rfl opens accepted⟩

end Typed.Validated

namespace Typed

/-- The lock `older(1)`. -/
def oneBlock : RelativeLock where
  value := 1
  pos := Nat.one_pos
  bounded := by decide +kernel

/-- Two of three, of which one is a lock: `thresh(2,d:v:older(1),a:pk(A),a:pk(B))`. -/
def lockOrTwoKeys : Typed PointKey Digest :=
  let wrapped (w : Wrapper) (x : Typed PointKey Digest) := ofFragment .legacy (.wrap w x)
  ofFragment .legacy (.thresh 2
    [wrapped .dupIf (wrapped .verify (ofFragment .legacy (.leaf (.older oneBlock)))),
      wrapped .alt (pk .legacy (pointOfByte 1)), wrapped .alt (pk .legacy (pointOfByte 2))])

/-- The argument 2 of the `d:` counts for two of three children, so no signature is needed, although the
type requires one. -/
theorem exists_unsigned_witness : ∃ (t : Typed PointKey Digest) (e : Evaluator) (witness : List Bytes),
    Validated .legacy t ∧ t.type.isTopLevel = true ∧ t.requiresSignature = true ∧ e.scheme = .ecdsa ∧
      (∀ key signature, e.checkSig key signature = false) ∧
      e.acceptsLeniently (t.script .legacy).bytes witness = true := by
  let e : Evaluator := ⟨.ecdsa, fun _ _ => false, fun _ => false, fun number => number == 1, true⟩
  have composed {fragment : Fragment PointKey Digest (Typed PointKey Digest)}
      (fits : composes .legacy fragment = true)
      (below : ∀ x ∈ fragment.children, Validated .legacy x) := validated_ofFragment fits below
  have key (x : UInt8) : Validated .legacy (pk .legacy (pointOfByte x) : Typed PointKey Digest) :=
    validated_pk rfl
  have valid : Validated .legacy lockOrTwoKeys := by
    refine composed rfl (List.forall_mem_cons.mpr ⟨?_, List.forall_mem_cons.mpr
      ⟨?_, List.forall_mem_singleton.mpr ?_⟩⟩)
    · refine composed rfl (List.forall_mem_singleton.mpr ?_)
      refine composed rfl (List.forall_mem_singleton.mpr ?_)
      exact composed rfl (List.forall_mem_nil _)
    · exact composed rfl (List.forall_mem_singleton.mpr (key 1))
    · exact composed rfl (List.forall_mem_singleton.mpr (key 2))
  have accepted : e.acceptsLeniently (lockOrTwoKeys.script .legacy).bytes [[], [], [2]] = true := by
    decide +kernel
  exact ⟨lockOrTwoKeys, e, _, valid, rfl, rfl, rfl, fun key signature => Bool.and_false _, accepted⟩

end Typed

end LockScript
