import LockScript.Proofs.NarrowReads
import LockScript.Proofs.Parsing
import LockScript.Proofs.Candidates

/-! # Widths of operands

What the fragments of a condition leave for each other are truth values, counts and the numbers of locks, so
the operands of a run are short if these are.
-/

namespace LockScript

/-- The numbers of a condition are short: those of its absolute locks, and how many answers any of its
thresholds may add up. -/
def Condition.NumbersNarrow {κ α : Type} : Condition κ Digest α → Prop :=
  All fun
    | .leaf (.after lock) => lock.value < 2 ^ 31
    | .thresh _ items => items.length < 2 ^ 31
    | _ => True

namespace Typed.Validated

open Evaluator

variable {κ : Type} [PublicKey κ] {context : Context} {e : Evaluator} {note : Attributes}

/-- A `B` of unit type leaves a truth value. -/
theorem leavesNarrow_of_unit (same : e.scheme = context.scheme) {t : Typed κ Digest}
    (valid : Validated context t) (base : t.type.soundness.base = .B) (unit : t.type.soundness.unit = true) :
    e.LeavesNarrow .B (t.script context) :=
  (unit ▸ valid.answersB same base).leavesNarrow

private theorem leavesNarrow_leaf (same : e.scheme = context.scheme) {l : Leaf κ Digest}
    (valid : Validated context (.leaf note l)) (numbers : (Condition.leaf note l).NumbersNarrow) :
    e.LeavesNarrow note.type.soundness.base ((Condition.leaf note l).script context) := by
  have typed := valid.leaf.2
  have ofUnit (base : note.type.soundness.base = .B) (unit : note.type.soundness.unit = true) :
      e.LeavesNarrow note.type.soundness.base ((Condition.leaf note l).script context) :=
    base ▸ valid.leavesNarrow_of_unit same base unit
  rw [Condition.NumbersNarrow, Condition.all_leaf] at numbers
  cases l with
  | key | keyHash =>
    rw [← typed]
    trivial
  | after lock =>
    rw [Condition.script_leaf, ← typed]
    exact leavesNarrow_lock numbers (.inl rfl)
  | older lock =>
    rw [Condition.script_leaf, ← typed]
    exact leavesNarrow_lock lock.bounded (.inr rfl)
  | _ => exact ofUnit (typed ▸ rfl) (typed ▸ rfl)

private theorem leavesNarrow_wrap (same : e.scheme = context.scheme) {w : Wrapper} {x : Typed κ Digest}
    (valid : Validated context (.wrap note w x))
    (below : e.LeavesNarrow x.type.soundness.base (x.script context)) :
    e.LeavesNarrow note.type.soundness.base ((Condition.wrap note w x).script context) := by
  have validX := valid.wrap.1
  have balanced := e.balanced_script context x
  have ofUnit (base : note.type.soundness.base = .B) (unit : note.type.soundness.unit = true) :
      e.LeavesNarrow note.type.soundness.base ((Condition.wrap note w x).script context) :=
    base ▸ valid.leavesNarrow_of_unit same base unit
  cases w with
  | alt =>
    obtain ⟨base, typed⟩ := Soundness.alt_eq_ok.mp valid.soundness_wrap
    rw [base] at below
    rw [Condition.script_wrap, ← typed]
    exact below.alt (validX.answersB same base) balanced
  | swap =>
    obtain ⟨base, one, typed⟩ := Soundness.swap_eq_ok.mp valid.soundness_wrap
    rw [base] at below
    rw [Condition.script_wrap, ← typed]
    exact below.swap (validX.answersB same base) fun run => (validX.allows run).of_isOne one
  | check =>
    obtain ⟨base, typed⟩ := Soundness.check_eq_ok.mp valid.soundness_wrap
    exact ofUnit (typed ▸ rfl) (typed ▸ rfl)
  | dupIf =>
    obtain ⟨base, none, typed⟩ := Soundness.dupIf_eq_ok.mp valid.soundness_wrap
    rw [Condition.script_wrap, ← typed]
    have empty {answer : Bool} {taken : List Bytes} (run : x.Answers e false answer taken) : taken = [] := by
      have allowed := validX.allows run
      rwa [none] at allowed
    have answers : e.AnswersB (AnswerRel.wrap false .dupIf (x.Answers e false)) true _ :=
      (validX.answersV same base).dupIf balanced empty
    exact answers.leavesNarrow
  | verify =>
    obtain ⟨base, typed⟩ := Soundness.verify_eq_ok.mp valid.soundness_wrap
    rw [← typed]
    trivial
  | nonzero =>
    obtain ⟨base, nonzero, typed⟩ := Soundness.nonzero_eq_ok.mp valid.soundness_wrap
    rw [base] at below
    rw [Condition.script_wrap, ← typed]
    simp only [base]
    exact below.nonzero balanced
  | zeroNotEqual =>
    obtain ⟨base, typed⟩ := Soundness.zeroNotEqual_eq_ok.mp valid.soundness_wrap
    exact ofUnit (by simp [← typed, base]) (typed ▸ rfl)

private theorem leavesNarrow_pair (same : e.scheme = context.scheme) {op : Connective} {x y : Typed κ Digest}
    (valid : Validated context (.pair note op x y))
    (first : e.LeavesNarrow x.type.soundness.base (x.script context))
    (second : e.LeavesNarrow y.type.soundness.base (y.script context)) :
    e.LeavesNarrow note.type.soundness.base ((Condition.pair note op x y).script context) := by
  obtain ⟨validX, validY, _⟩ := valid.pair
  have balancedX := e.balanced_script context x
  have balancedY := e.balanced_script context y
  have ofUnit (base : note.type.soundness.base = .B) (unit : note.type.soundness.unit = true) :
      e.LeavesNarrow note.type.soundness.base ((Condition.pair note op x y).script context) :=
    base ▸ valid.leavesNarrow_of_unit same base unit
  cases op with
  | andV =>
    obtain ⟨baseX, stackLike, typed⟩ := Soundness.andV_eq_ok.mp valid.soundness_pair
    rw [Condition.script_pair, ← typed]
    cases baseY : y.type.soundness.base with
    | B => exact (baseY ▸ second : e.LeavesNarrow .B _).append balancedX
    | K | V => trivial
    | W => exact absurd baseY stackLike
  | andB =>
    obtain ⟨baseX, baseY, typed⟩ := Soundness.andB_eq_ok.mp valid.soundness_pair
    exact ofUnit (typed ▸ rfl) (typed ▸ rfl)
  | orB =>
    obtain ⟨baseX, baseY, _, _, typed⟩ := Soundness.orB_eq_ok.mp valid.soundness_pair
    exact ofUnit (typed ▸ rfl) (typed ▸ rfl)
  | orD =>
    obtain ⟨_, unit, baseX, baseY, typed⟩ := Soundness.orD_eq_ok.mp valid.soundness_pair
    rw [baseY] at second
    rw [Condition.script_pair, ← typed]
    exact second.orD (unit ▸ validX.answersB same baseX) balancedX balancedY
  | orC =>
    obtain ⟨_, _, _, _, typed⟩ := Soundness.orC_eq_ok.mp valid.soundness_pair
    rw [← typed]
    trivial
  | orI =>
    obtain ⟨equal, stackLike, typed⟩ := Soundness.orI_eq_ok.mp valid.soundness_pair
    rw [equal] at first
    rw [Condition.script_pair, ← typed]
    cases baseY : y.type.soundness.base with
    | B =>
      rw [baseY] at first second
      exact first.alternative second balancedX balancedY true
    | K | V => trivial
    | W => exact absurd baseY stackLike

private theorem leavesNarrow_andOr {x y z : Typed κ Digest}
    (valid : Validated context (.andOr note x y z))
    (second : e.LeavesNarrow y.type.soundness.base (y.script context))
    (third : e.LeavesNarrow z.type.soundness.base (z.script context)) :
    e.LeavesNarrow note.type.soundness.base ((Condition.andOr note x y z).script context) := by
  obtain ⟨_, unitX, baseX, equal, stackLike, typed⟩ := Soundness.andOr_eq_ok.mp valid.soundness_andOr
  rw [equal] at second
  rw [Condition.script_andOr, ← typed, andOr_eq]
  cases baseZ : z.type.soundness.base with
  | B =>
    rw [baseZ] at second third
    exact (third.alternative second (e.balanced_script context z) (e.balanced_script context y) false).append
      (e.balanced_script context x)
  | K | V => trivial
  | W => exact absurd baseZ stackLike

/-- What conditions with short numbers leave is short. -/
theorem leavesNarrow (same : e.scheme = context.scheme) {t : Typed κ Digest} (valid : Validated context t)
    (numbers : t.NumbersNarrow) : e.LeavesNarrow t.type.soundness.base (t.script context) := by
  induction t using Typed.induct with
  | leaf note l => exact valid.leavesNarrow_leaf same numbers
  | wrap note w x ih =>
    exact valid.leavesNarrow_wrap same (ih valid.wrap.1 ((Condition.all_wrap ..).mp numbers).2)
  | pair note op x y ihX ihY =>
    obtain ⟨validX, validY, _⟩ := valid.pair
    obtain ⟨_, numbersX, numbersY⟩ := (Condition.all_pair ..).mp numbers
    exact valid.leavesNarrow_pair same (ihX validX numbersX) (ihY validY numbersY)
  | andOr note x y z ihX ihY ihZ =>
    obtain ⟨_, validY, validZ, _⟩ := valid.andOr
    obtain ⟨_, _, numbersY, numbersZ⟩ := (Condition.all_andOr ..).mp numbers
    exact valid.leavesNarrow_andOr (ihY validY numbersY) (ihZ validZ numbersZ)
  | thresh note k items ih =>
    obtain ⟨_, positive, bounded, _⟩ := valid.thresh
    obtain ⟨first, rest, rfl⟩ := List.exists_cons_of_length_pos (Nat.lt_of_lt_of_le positive bounded)
    obtain ⟨_, _, _, typed⟩ := Soundness.threshold_eq_ok.mp valid.soundness_thresh
    have base : note.type.soundness.base = .B := typed ▸ rfl
    have unit : note.type.soundness.unit = true := typed ▸ rfl
    change e.LeavesNarrow note.type.soundness.base _
    rw [base]
    exact valid.leavesNarrow_of_unit same base unit

private theorem readsShort_wrap (same : e.scheme = context.scheme) {w : Wrapper} {x : Typed κ Digest}
    (valid : Validated context (.wrap note w x))
    (leaves : e.LeavesNarrow x.type.soundness.base (x.script context)) (reads : e.ReadsShort (x.script context)) :
    e.ReadsShort ((Condition.wrap note w x).script context) := by
  have validX := valid.wrap.1
  have nested := Script.nested_script context x
  rw [Condition.script_wrap]
  cases w with
  | alt => exact reads.alt
  | swap => exact reads.swap
  | check => exact reads.check
  | dupIf => exact reads.dupIf nested
  | verify => exact reads.verify
  | nonzero => exact reads.nonzero nested
  | zeroNotEqual =>
    obtain ⟨base, _⟩ := Soundness.zeroNotEqual_eq_ok.mp valid.soundness_wrap
    rw [base] at leaves
    exact (validX.answersB same base).reads_zeroNotEqual (e.balanced_script context x) leaves reads

private theorem readsShort_pair (same : e.scheme = context.scheme) {op : Connective} {x y : Typed κ Digest}
    (valid : Validated context (.pair note op x y))
    (leavesX : e.LeavesNarrow x.type.soundness.base (x.script context))
    (leavesY : e.LeavesNarrow y.type.soundness.base (y.script context))
    (readsX : e.ReadsShort (x.script context)) (readsY : e.ReadsShort (y.script context)) :
    e.ReadsShort ((Condition.pair note op x y).script context) := by
  obtain ⟨validX, validY, _⟩ := valid.pair
  have balancedX := e.balanced_script context x
  have balancedY := e.balanced_script context y
  have nestedY := Script.nested_script context y
  have joined {opcode : Opcode} (two : opcode.operands = 2) (baseX : x.type.soundness.base = .B)
      (baseY : y.type.soundness.base = .W) :
      e.ReadsShort (x.script context ++ y.script context ++ [.op opcode]) := by
    rw [baseX] at leavesX
    rw [baseY] at leavesY
    exact (validX.answersB same baseX).reads_join balancedX leavesX readsX (validY.answersW same baseY) balancedY
      leavesY readsY two
  rw [Condition.script_pair]
  cases op with
  | andV =>
    obtain ⟨baseX, _⟩ := Soundness.andV_eq_ok.mp valid.soundness_pair
    exact (validX.answersV same baseX).reads_andV balancedX readsX readsY
  | andB =>
    obtain ⟨baseX, baseY, _⟩ := Soundness.andB_eq_ok.mp valid.soundness_pair
    exact joined rfl baseX baseY
  | orB =>
    obtain ⟨baseX, baseY, _⟩ := Soundness.orB_eq_ok.mp valid.soundness_pair
    exact joined rfl baseX baseY
  | orD =>
    obtain ⟨_, unit, baseX, _⟩ := Soundness.orD_eq_ok.mp valid.soundness_pair
    exact (unit ▸ validX.answersB same baseX).reads_orD balancedX readsX nestedY readsY
  | orC =>
    obtain ⟨_, unit, baseX, _⟩ := Soundness.orC_eq_ok.mp valid.soundness_pair
    exact (unit ▸ validX.answersB same baseX).reads_orC balancedX readsX nestedY readsY
  | orI => exact readsX.alternative readsY balancedX (Script.nested_script context x) nestedY true

/-- Conditions with short numbers only read short numbers, whatever is given to their scripts. -/
theorem readsShort (same : e.scheme = context.scheme) {t : Typed κ Digest} (valid : Validated context t)
    (numbers : t.NumbersNarrow) : e.ReadsShort (t.script context) := by
  induction t using Typed.induct with
  | leaf note l =>
    rw [Condition.script_leaf]
    refine readsShort_ofLeaf fun ks isMultiA => ?_
    subst isMultiA
    have allowed := valid.leaf.1
    rw [same]
    cases scheme : context.scheme with
    | ecdsa => simp [Context.checkFragment, scheme] at allowed
    | schnorr => rfl
  | wrap note w x ih =>
    have validX := valid.wrap.1
    have numbersX := ((Condition.all_wrap ..).mp numbers).2
    exact valid.readsShort_wrap same (validX.leavesNarrow same numbersX) (ih validX numbersX)
  | pair note op x y ihX ihY =>
    obtain ⟨validX, validY, _⟩ := valid.pair
    obtain ⟨_, numbersX, numbersY⟩ := (Condition.all_pair ..).mp numbers
    exact valid.readsShort_pair same (validX.leavesNarrow same numbersX) (validY.leavesNarrow same numbersY)
      (ihX validX numbersX) (ihY validY numbersY)
  | andOr note x y z ihX ihY ihZ =>
    obtain ⟨validX, validY, validZ, _⟩ := valid.andOr
    obtain ⟨_, numbersX, numbersY, numbersZ⟩ := (Condition.all_andOr ..).mp numbers
    obtain ⟨_, unit, baseX, _⟩ := Soundness.andOr_eq_ok.mp valid.soundness_andOr
    rw [Condition.script_andOr]
    refine (unit ▸ validX.answersB same baseX).reads_andOr (e.balanced_script context x) (ihX validX numbersX) ?_
    exact (ihZ validZ numbersZ).alternative (ihY validY numbersY) (e.balanced_script context z)
      (Script.nested_script context z) (Script.nested_script context y) false
  | thresh note k items ih =>
    obtain ⟨below, positive, bounded, _⟩ := valid.thresh
    obtain ⟨few, numbersBelow⟩ := (Condition.all_thresh ..).mp numbers
    obtain ⟨first, rest, rfl⟩ := List.exists_cons_of_length_pos (Nat.lt_of_lt_of_le positive bounded)
    obtain ⟨base, bases, summands, _⟩ := Soundness.threshold_eq_ok.mp valid.soundness_thresh
    obtain ⟨unit, units⟩ := List.forall_mem_cons.mp summands
    simp only [List.map_map, List.forall_mem_map, Function.comp_apply] at bases units
    have reads (x : Typed κ Digest) (member : x ∈ first :: rest) : e.ReadsShort (x.script context) :=
      ih x member (below x member) (numbersBelow x member)
    have head := (below first List.mem_cons_self).answersB same base
    rw [unit.1] at head
    have others (x : Typed κ Digest) (member : x ∈ rest) :
        e.AnswersW (x.Answers e false) true (x.script context) ∧ e.LeavesNarrow .W (x.script context) := by
      have validX := below x (List.mem_cons_of_mem first member)
      have answers := validX.answersW same (bases x member)
      have leaves := validX.leavesNarrow same (numbersBelow x (List.mem_cons_of_mem first member))
      rw [(units x member).1] at answers
      rw [bases x member] at leaves
      exact ⟨answers, leaves⟩
    rw [Condition.script_thresh]
    exact head.reads_threshold (e.balanced_script context first) (reads first List.mem_cons_self)
      (fun x member => (others x member).1) (fun x _ => e.balanced_script context x)
      (fun x member => (others x member).2) (fun x member => reads x (List.mem_cons_of_mem first member))
      (Nat.lt_of_succ_lt few)

end Typed.Validated

section Found

/-- All elements have at most the length of a signature. -/
def Bytes.AllBrief (elements : List Bytes) : Prop :=
  ∀ element ∈ elements, element.length ≤ 73

namespace Search

variable {κ : Type} {search : Search κ}

theorem gives_brief_empty (count : Nat) : (Witness.stack (List.replicate count [])).Gives Bytes.AllBrief := by
  refine Witness.gives_stack.mpr fun element member => ?_
  rw [List.eq_of_mem_replicate (List.mem_reverse.mp member)]
  exact Nat.zero_le 73

theorem gives_brief_below {upper lower : Witness} (high : upper.Gives Bytes.AllBrief)
    (low : lower.Gives Bytes.AllBrief) : (lower.below upper).Gives Bytes.AllBrief := by
  refine (low.below high).mono ?_
  rintro _ ⟨first, second, rfl, above, under⟩
  exact List.forall_mem_append.mpr ⟨above, under⟩

theorem gives_brief_lock (met : Bool) : (search.lock met).Gives fun _ => Bytes.AllBrief := by
  refine ⟨?_, Witness.gives_impossible⟩
  rw [lock]
  split
  · exact gives_brief_empty 0
  · split
    · exact Witness.gives_impossible
    · exact Witness.gives_unavailable

theorem gives_brief_secret (d : Digest) : (search.secret d).Gives Bytes.AllBrief := by
  rw [secret]
  split
  · exact Witness.gives_stack.mpr (List.forall_mem_singleton.mpr (by simp))
  · exact Witness.gives_unavailable

variable (short : ∀ key signature,
  search.material.signature? search.scheme search.leafHash key = some signature → signature.length ≤ 73)

include short

theorem gives_brief_signature (key : κ) : (search.signature key).Gives Bytes.AllBrief := by
  rw [signature]
  split
  next found => exact Witness.gives_stack.mpr (List.forall_mem_singleton.mpr (short key _ found))
  next => exact Witness.gives_impossible

theorem gives_brief_multi (k : Nat) (keys : List κ) : (search.multi k keys).Gives fun _ => Bytes.AllBrief := by
  refine ⟨?_, gives_brief_empty _⟩
  rw [multi]
  simp only
  split
  next => exact Witness.gives_impossible
  next =>
    refine Witness.gives_stack.mpr fun element member => ?_
    obtain rfl | member := List.mem_cons.mp (List.mem_reverse.mp member)
    · exact Nat.zero_le 73
    · obtain ⟨key, _, found⟩ := List.mem_filterMap.mp ((keepShortest_sublist k _).1.subset member)
      exact short key element found

theorem gives_brief_multiA (k : Nat) (keys : List κ) : (search.multiA k keys).Gives fun _ => Bytes.AllBrief := by
  refine ⟨?_, gives_brief_empty _⟩
  rw [multiA]
  simp only
  split
  next items filled =>
    obtain ⟨places, fills, _, rfl⟩ := fillSlots?_eq_some filled
    refine Witness.gives_stack.mpr fun element member => ?_
    obtain ⟨place, among, rfl⟩ := List.mem_map.mp (List.mem_reverse.mp member)
    rw [List.forall₂_map_left_iff] at fills
    obtain ⟨key, _, ⟨_, found⟩ | rfl⟩ := exists_of_mem_forall₂ fills among
    · exact short key _ found
    · exact Nat.zero_le 73
  next => exact Witness.gives_impossible

/-- What is found for a leaf is brief if the signatures are. -/
theorem gives_brief_leaf [PublicKey κ] (l : Leaf κ Digest) : (search.ofLeaf l).Gives fun _ => Bytes.AllBrief := by
  have revealed (key : κ) : (Witness.stack [PublicKey.pushed search.scheme key]).Gives Bytes.AllBrief :=
    Witness.gives_stack.mpr (List.forall_mem_singleton.mpr
      ((PublicKey.length_pushed_le search.scheme key).trans (by decide)))
  cases l with
  | one => exact ⟨gives_brief_empty 0, Witness.gives_impossible⟩
  | zero => exact ⟨Witness.gives_impossible, gives_brief_empty 0⟩
  | key k => exact ⟨gives_brief_signature short k, gives_brief_empty 1⟩
  | keyHash k =>
    exact ⟨gives_brief_below (revealed k) (gives_brief_signature short k),
      gives_brief_below (revealed k) (gives_brief_empty 1)⟩
  | after l | older l => exact gives_brief_lock _
  | digest d =>
    exact ⟨gives_brief_secret d, Witness.gives_stack.mpr (List.forall_mem_singleton.mpr (by simp))⟩
  | multi ks => exact gives_brief_multi short ks.k ks.items
  | multiA ks => exact gives_brief_multiA short ks.k ks.items

end Search

variable {κ : Type} [PublicKey κ] {context : Context} {e : Evaluator}

namespace Typed

variable {t : Typed κ Digest} {material : Material κ} {policy : Policy} {witness : List Bytes}

/-- Found witnesses are brief. -/
theorem allBrief_of_satisfy (same : e.scheme = context.scheme) (genuine : material.Genuine e (t.leafHash context))
    (found : t.satisfy context policy material = .ok witness) : Bytes.AllBrief witness := by
  let search := t.search context policy material
  have leaves (l : Leaf κ Digest) : (search.ofLeaf l).Gives fun _ => Bytes.AllBrief :=
    Search.gives_brief_leaf (fun key signature known => genuine.length_le key signature (same ▸ known)) l
  have candidate := (search.gives_candidates t).sat witness (satisfy_eq_ok.mp found)
  have brief := candidate.forall_mem (Nat.zero_le 73) (by decide) leaves
  exact fun element member => brief element (List.mem_reverse.mpr member)

theorem Validated.countsBelow_of_numbersNarrow (valid : Validated context t) (numbers : t.NumbersNarrow) :
    t.CountsBelow (2 ^ 31) := by
  intro x member
  have few := numbers x member
  have validX := valid.of_mem_preorder member
  cases x with
  | thresh note k items => exact Nat.lt_of_le_of_lt validX.thresh.2.2.1 few
  | leaf | wrap | pair | andOr => trivial

end Typed

end Found

/-- The last lock time with a number of four bytes. -/
def AbsoluteLock.latestNarrow : AbsoluteLock where
  value := 2 ^ 31 - 1
  pos := by decide
  bounded := by decide +kernel

/-- The last lock time of all. -/
def AbsoluteLock.latest : AbsoluteLock where
  value := 2 ^ 31
  pos := by decide
  bounded := by decide +kernel

/-- What a transaction with the last lock time supplies, without any signature or secret. -/
abbrev Material.latest : Material PointKey :=
  ofLockTime AbsoluteLock.latest.value

/-- The checks for a transaction with the last lock time, where no signature verifies. -/
def Evaluator.latest : Evaluator :=
  ⟨.ecdsa, fun _ _ => false, fun number => decide (AbsoluteLock.timeThreshold ≤ number), fun _ => false, true⟩

theorem Material.genuine_latest (leafHash : LeafHash) : latest.Genuine .latest leafHash where
  verifies _ _ := nofun
  length_le _ _ := nofun
  opens _ _ := nofun
  meetsAfter_eq lock := by
    have bounded := lock.bounded
    simp only [ofLockTime, Evaluator.latest, AbsoluteLock.latest, AbsoluteLock.metBy, AbsoluteLock.isHeight,
      AbsoluteLock.timeThreshold]
    grind
  meetsOlder_eq _ := rfl

namespace Typed

/-- The answer of a lock as a truth value: `n:after(lock)`. -/
def lockFlag (lock : AbsoluteLock) : Typed PointKey Digest :=
  ofFragment .segwit (.wrap .zeroNotEqual (ofFragment .segwit (.leaf (.after lock))))

theorem validated_lockFlag {lock : AbsoluteLock}
    (leafFits : composes .segwit (.leaf (.after lock) : Fragment PointKey Digest (Typed PointKey Digest)) = true)
    (fits : composes .segwit (.wrap .zeroNotEqual (ofFragment .segwit (.leaf (.after lock))) :
      Fragment PointKey Digest (Typed PointKey Digest)) = true) : Validated .segwit (lockFlag lock) := by
  refine validated_ofFragment fits (List.forall_mem_singleton.mpr ?_)
  exact validated_ofFragment leafFits (List.forall_mem_nil _)

namespace Validated

variable {κ : Type} [PublicKey κ] {context : Context} {e : Evaluator} {t : Typed κ Digest}
  {material : Material κ} {policy : Policy} {witness : List Bytes}

/-- On the witnesses that are found for it, a script with short numbers only reads short numbers. -/
theorem readsNarrow_of_satisfy (same : e.scheme = context.scheme) (valid : Validated context t)
    (numbers : t.NumbersNarrow) (genuine : material.Genuine e (t.leafHash context))
    (found : t.satisfy context policy material = .ok witness) :
    ∃ script, Script.parse? (t.script context).bytes = some script ∧
      e.readsNarrow script ⟨⟨witness.reverse, []⟩, []⟩ = true := by
  have counts := (valid.countsBelow_of_numbersNarrow numbers).mono (by decide : 2 ^ 31 ≤ 2 ^ 64)
  refine ⟨_, Script.parse?_bytes (t.isShort_script context counts), ?_⟩
  refine valid.readsShort same numbers witness.reverse [] (fun element member => ?_) [] rfl
  have short := allBrief_of_satisfy same genuine found element (List.mem_reverse.mp member)
  exact Nat.lt_of_le_of_lt short (by decide)

/-- A script may read the number of a lock with four bytes. -/
theorem readsNarrow_of_satisfy_latestNarrow : ∃ (t : Typed PointKey Digest) (script : Script),
    Validated .segwit t ∧ t.NumbersNarrow ∧ Material.latest.Genuine .latest (t.leafHash .segwit) ∧
      t.satisfy .segwit .nonMalleable Material.latest = .ok [] ∧
      Script.parse? (t.script .segwit).bytes = some script ∧
      Evaluator.latest.readsNarrow script ⟨⟨[], []⟩, []⟩ = true := by
  let t := lockFlag .latestNarrow
  have valid : Validated .segwit t := validated_lockFlag (by decide +kernel) (by decide +kernel)
  have numbers : t.NumbersNarrow := by
    simp [t, lockFlag, Condition.NumbersNarrow, AbsoluteLock.latestNarrow, Fragment.children]
  have genuine := Material.genuine_latest (t.leafHash .segwit)
  have found : t.satisfy .segwit .nonMalleable Material.latest = .ok [] := by decide +kernel
  obtain ⟨script, parsed, narrow⟩ := readsNarrow_of_satisfy rfl valid numbers genuine found
  exact ⟨t, script, valid, numbers, genuine, found, parsed, narrow⟩

end Validated

/-- The number of the last lock time of all has five bytes, which `n:` then reads. -/
theorem exists_wide_operand : ∃ (t : Typed PointKey Digest) (witness : List Bytes),
    Validated .segwit t ∧ t.type.isTopLevel = true ∧
      Material.latest.Genuine .latest (t.leafHash .segwit) ∧
      t.satisfy .segwit .nonMalleable Material.latest = .ok witness ∧
      Script.parse? (t.script .segwit).bytes = some (t.script .segwit) ∧
      Evaluator.latest.readsNarrow (t.script .segwit) ⟨⟨witness.reverse, []⟩, []⟩ = false := by
  let t := lockFlag .latest
  have valid : Validated .segwit t := validated_lockFlag (by decide +kernel) (by decide +kernel)
  have counts : t.CountsBelow (2 ^ 64) := by simp [t, lockFlag, Condition.CountsBelow, Fragment.children]
  have found : t.satisfy .segwit .nonMalleable Material.latest = .ok [] := by decide +kernel
  have wide : Evaluator.latest.readsNarrow (t.script .segwit) ⟨⟨[], []⟩, []⟩ = false := by decide +kernel
  exact ⟨t, [], valid, rfl, Material.genuine_latest _, found,
    Script.parse?_bytes (t.isShort_script .segwit counts), wide⟩

end Typed

end LockScript
