import LockScript.Proofs.LeafScripts

/-! # Validated conditions answer through their scripts

The type rules are what makes the scripts of children fit: an `s:` takes exactly one element, a `d:`
none, sums and branches are over results of unit type. So the script of every validated condition
answers as the condition does, by induction on the condition.
-/

namespace LockScript

namespace Typed

open Evaluator

variable {κ : Type} [PublicKey κ] {context : Context} {e : Evaluator}

/-- The script of a condition answers as its type says. -/
def Adequate (e : Evaluator) (context : Context) (t : Typed κ Digest) : Prop :=
  e.Adequate (t.Answers e false) t.type.soundness.base t.type.soundness.unit (t.script context)

namespace Validated

variable {note : Attributes}

private theorem adequate_leaf (same : e.scheme = context.scheme) {l : Leaf κ Digest}
    (valid : Validated context (.leaf note l)) : Adequate e context (.leaf note l) := by
  obtain ⟨allowed, typed⟩ := valid.leaf
  rw [Typed.Adequate, Condition.answers_leaf, Condition.script_leaf]
  change e.Adequate _ note.type.soundness.base note.type.soundness.unit _
  rw [← typed]
  cases l with
  | one => exact answersB_one
  | zero => exact answersB_zero
  | key k => exact answersB_key same k
  | keyHash k => exact answersB_keyHash same k
  | after lock => exact answersB_after lock
  | older lock => exact answersB_older lock
  | digest d => exact answersB_digest d
  | multi ks =>
    refine answersB_multi same ?_ ks
    rw [same]
    cases scheme : context.scheme with
    | ecdsa => rfl
    | schnorr => simp [Context.checkFragment, scheme] at allowed
  | multiA ks =>
    refine answersB_multiA same ?_ ks
    rw [same]
    cases scheme : context.scheme with
    | ecdsa => simp [Context.checkFragment, scheme] at allowed
    | schnorr => rfl

private theorem adequate_wrap {w : Wrapper} {x : Typed κ Digest}
    (valid : Validated context (.wrap note w x)) (below : Adequate e context x) :
    Adequate e context (.wrap note w x) := by
  have validX := valid.wrap.1
  have balanced := e.balanced_script context x
  rw [Typed.Adequate, Condition.answers_wrap, Condition.script_wrap]
  change e.Adequate _ note.type.soundness.base note.type.soundness.unit _
  rw [Typed.Adequate] at below
  cases w with
  | alt =>
    obtain ⟨base, same⟩ := Soundness.alt_eq_ok.mp valid.soundness_wrap
    simp only [base, Evaluator.Adequate] at below
    rw [← same]
    exact below.alt balanced
  | swap =>
    obtain ⟨base, one, same⟩ := Soundness.swap_eq_ok.mp valid.soundness_wrap
    simp only [base, Evaluator.Adequate] at below
    rw [← same]
    exact below.swap fun run => (validX.allows run).of_isOne one
  | check =>
    obtain ⟨base, same⟩ := Soundness.check_eq_ok.mp valid.soundness_wrap
    simp only [base, Evaluator.Adequate] at below
    rw [← same]
    exact below
  | dupIf =>
    obtain ⟨base, none, same⟩ := Soundness.dupIf_eq_ok.mp valid.soundness_wrap
    simp only [base, Evaluator.Adequate] at below
    rw [← same]
    refine below.dupIf balanced fun run => ?_
    have taken := validX.allows run
    rwa [none] at taken
  | verify =>
    obtain ⟨base, same⟩ := Soundness.verify_eq_ok.mp valid.soundness_wrap
    simp only [base, Evaluator.Adequate] at below
    rw [← same]
    exact below.verify balanced
  | nonzero =>
    obtain ⟨base, nonzero, same⟩ := Soundness.nonzero_eq_ok.mp valid.soundness_wrap
    simp only [base, Evaluator.Adequate] at below
    rw [← same]
    simp only [Evaluator.Adequate, base]
    exact below.nonzero balanced fun run => (validX.allows run).of_isNonzero nonzero
  | zeroNotEqual =>
    obtain ⟨base, same⟩ := Soundness.zeroNotEqual_eq_ok.mp valid.soundness_wrap
    simp only [base, Evaluator.Adequate] at below
    rw [← same]
    simp only [Evaluator.Adequate, base]
    exact below.zeroNotEqual balanced

private theorem adequate_pair {op : Connective} {x y : Typed κ Digest}
    (valid : Validated context (.pair note op x y)) (first : Adequate e context x)
    (second : Adequate e context y) : Adequate e context (.pair note op x y) := by
  have balancedX := e.balanced_script context x
  have balancedY := e.balanced_script context y
  rw [Typed.Adequate, Condition.answers_pair, Condition.script_pair]
  change e.Adequate _ note.type.soundness.base note.type.soundness.unit _
  rw [Typed.Adequate] at first second
  cases op with
  | andV =>
    obtain ⟨baseX, stackLike, same⟩ := Soundness.andV_eq_ok.mp valid.soundness_pair
    simp only [baseX, Evaluator.Adequate] at first
    rw [← same]
    cases baseY : y.type.soundness.base <;> simp only [baseY, Evaluator.Adequate] at second ⊢
    · exact answersB_append_nil.mp (first.andV balancedX (answersB_append_nil.mpr second))
    · exact first.andV balancedX second
    · exact first.andV_verify balancedX second
    · exact absurd baseY stackLike
  | andB =>
    obtain ⟨baseX, baseY, same⟩ := Soundness.andB_eq_ok.mp valid.soundness_pair
    simp only [baseX, Evaluator.Adequate] at first
    simp only [baseY, Evaluator.Adequate] at second
    rw [← same]
    exact first.andB balancedX second balancedY
  | orB =>
    obtain ⟨baseX, baseY, _, _, same⟩ := Soundness.orB_eq_ok.mp valid.soundness_pair
    simp only [baseX, Evaluator.Adequate] at first
    simp only [baseY, Evaluator.Adequate] at second
    rw [← same]
    exact first.orB balancedX second balancedY
  | orD =>
    obtain ⟨_, unitX, baseX, baseY, same⟩ := Soundness.orD_eq_ok.mp valid.soundness_pair
    simp only [baseX, unitX, Evaluator.Adequate] at first
    simp only [baseY, Evaluator.Adequate] at second
    rw [← same]
    exact first.orD balancedX second balancedY
  | orC =>
    obtain ⟨_, unitX, baseX, baseY, same⟩ := Soundness.orC_eq_ok.mp valid.soundness_pair
    simp only [baseX, unitX, Evaluator.Adequate] at first
    simp only [baseY, Evaluator.Adequate] at second
    rw [← same]
    exact first.orC balancedX second balancedY
  | orI =>
    obtain ⟨equal, stackLike, same⟩ := Soundness.orI_eq_ok.mp valid.soundness_pair
    rw [← same]
    simp only [equal] at first
    cases baseY : y.type.soundness.base <;> simp only [baseY, Evaluator.Adequate] at first second ⊢
    · exact answersB_append_nil.mp (.orI (answersB_append_nil.mpr first) balancedX
        (answersB_append_nil.mpr second) balancedY)
    · exact first.orI balancedX second balancedY
    · exact first.orI balancedX second balancedY
    · exact absurd baseY stackLike

private theorem adequate_andOr {x y z : Typed κ Digest}
    (valid : Validated context (.andOr note x y z)) (first : Adequate e context x)
    (second : Adequate e context y) (third : Adequate e context z) :
    Adequate e context (.andOr note x y z) := by
  have balancedX := e.balanced_script context x
  have balancedY := e.balanced_script context y
  have balancedZ := e.balanced_script context z
  rw [Typed.Adequate, Condition.answers_andOr, Condition.script_andOr]
  change e.Adequate _ note.type.soundness.base note.type.soundness.unit _
  rw [Typed.Adequate] at first second third
  obtain ⟨_, unitX, baseX, equal, stackLike, same⟩ := Soundness.andOr_eq_ok.mp valid.soundness_andOr
  simp only [baseX, unitX, Evaluator.Adequate] at first
  simp only [equal] at second
  rw [← same]
  cases baseZ : z.type.soundness.base <;> simp only [baseZ, Evaluator.Adequate] at second third ⊢
  · exact answersB_append_nil.mp (first.andOr balancedX (answersB_append_nil.mpr second) balancedY
      (answersB_append_nil.mpr third) balancedZ)
  · exact first.andOr balancedX second balancedY third balancedZ
  · exact AnswersV.andOr first balancedX second balancedY third balancedZ
  · exact absurd baseZ stackLike

private theorem adequate_thresh {k : Nat} {items : List (Typed κ Digest)}
    (valid : Validated context (.thresh note k items))
    (below : ∀ x ∈ items, Adequate e context x) : Adequate e context (.thresh note k items) := by
  obtain ⟨_, positive, bounded, _⟩ := valid.thresh
  obtain ⟨first, rest, rfl⟩ := List.exists_cons_of_length_pos (Nat.lt_of_lt_of_le positive bounded)
  obtain ⟨base, bases, summands, same⟩ := Soundness.threshold_eq_ok.mp valid.soundness_thresh
  rw [Typed.Adequate, Condition.answers_thresh, Condition.script_thresh]
  change e.Adequate _ note.type.soundness.base note.type.soundness.unit _
  rw [← same]
  obtain ⟨unit, units⟩ := List.forall_mem_cons.mp summands
  obtain ⟨head, others⟩ := List.forall_mem_cons.mp below
  simp only [List.map_map, List.forall_mem_map, Function.comp_apply] at bases units
  refine AnswersB.threshold ?_ (e.balanced_script context first) ?_
    fun x _ => e.balanced_script context x
  · rw [Typed.Adequate] at head
    simpa only [base, unit.1, Evaluator.Adequate] using head
  · intro x member
    have answers := others x member
    rw [Typed.Adequate] at answers
    simpa only [bases x member, (units x member).1, Evaluator.Adequate] using answers

/-- Every validated condition answers through its script. -/
theorem adequate (same : e.scheme = context.scheme) {t : Typed κ Digest}
    (valid : Validated context t) : Adequate e context t := by
  induction t using Typed.induct with
  | leaf note l => exact valid.adequate_leaf same
  | wrap note w x ih => exact valid.adequate_wrap (ih valid.wrap.1)
  | pair note op x y ihX ihY => exact valid.adequate_pair (ihX valid.pair.1) (ihY valid.pair.2.1)
  | andOr note x y z ihX ihY ihZ =>
    obtain ⟨validX, validY, validZ, _⟩ := valid.andOr
    exact valid.adequate_andOr (ihX validX) (ihY validY) (ihZ validZ)
  | thresh note k items ih =>
    exact valid.adequate_thresh fun x member => ih x member (valid.thresh.1 x member)

section Bases

variable {t : Typed κ Digest} (same : e.scheme = context.scheme) (valid : Validated context t)

include same valid

theorem answersB (base : t.type.soundness.base = .B) :
    e.AnswersB (t.Answers e false) t.type.soundness.unit (t.script context) := by
  have answers := valid.adequate same
  rwa [Typed.Adequate, base] at answers

theorem answersK (base : t.type.soundness.base = .K) :
    e.AnswersB (t.Answers e false) true (t.script context ++ [.op .checkSig]) := by
  have answers := valid.adequate same
  rwa [Typed.Adequate, base] at answers

theorem answersV (base : t.type.soundness.base = .V) : e.AnswersV (t.Answers e false) (t.script context) := by
  have answers := valid.adequate same
  rwa [Typed.Adequate, base] at answers

theorem answersW (base : t.type.soundness.base = .W) :
    e.AnswersW (t.Answers e false) t.type.soundness.unit (t.script context) := by
  have answers := valid.adequate same
  rwa [Typed.Adequate, base] at answers

end Bases

/-- A condition at the top of a script accepts a witness if it answers yes on all of it. -/
theorem acceptsScript_iff (same : e.scheme = context.scheme) {t : Typed κ Digest}
    (valid : Validated context t) (top : t.type.isTopLevel = true) (witness : List Bytes) :
    e.acceptsScript (t.script context) witness = true ↔ t.Answers e false true witness.reverse := by
  have answers := valid.adequate same
  have base : t.type.soundness.base = .B := beq_iff_eq.mp top
  simp only [Typed.Adequate, Evaluator.Adequate, base] at answers
  unfold acceptsScript
  constructor
  · intro accepted
    split at accepted
    next result _ ran =>
      obtain ⟨answer, taken, rest, result, split, run, denotes, out⟩ := answers.sound ran
      cases out
      rw [denotes.isTrue_eq] at accepted
      subst accepted
      rwa [split, List.append_nil]
    next => cases accepted
  · intro run
    obtain ⟨result, denotes, ran⟩ := answers.complete [] [] run
    rw [List.append_nil] at ran
    rw [ran]
    exact denotes.isTrue_eq

end Validated

end Typed

end LockScript
