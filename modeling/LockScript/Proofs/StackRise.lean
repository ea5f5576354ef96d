import LockScript.Proofs.StackDepth

/-! # How far templates raise the stacks

A script that answers on some elements may have more elements on the stacks while it runs. Each template
raises the stacks no further than the scripts of its children do, where one that runs later may find the
answer of an earlier one below.
-/

namespace LockScript

namespace Evaluator

variable {e : Evaluator}

variable (e) in
/-- On the elements that it takes, a script lets the stacks rise by no more than `extra`. -/
def Rises (script : Script) (taken : List Bytes) (extra : Nat) : Prop :=
  ∀ rest alt, e.Bounded (taken.length + rest.length + alt.length + extra) script ⟨taken ++ rest, alt⟩

variable (e) in
/-- The same for a script that works below the top element. -/
def RisesBelow (script : Script) (taken : List Bytes) (extra : Nat) : Prop :=
  ∀ top rest alt, e.Bounded (taken.length + rest.length + alt.length + 1 + extra) script
    ⟨top :: (taken ++ rest), alt⟩

section Templates

variable {sx sy sz script : Script} {upper lower taken : List Bytes} {extra extra' : Nat}

private theorem size_append (taken rest alt : List Bytes) :
    (Stacks.mk (taken ++ rest) alt).size = taken.length + rest.length + alt.length := by
  rw [Stacks.size, List.length_append]

theorem Rises.mono (rises : e.Rises script taken extra) (le : extra ≤ extra') :
    e.Rises script taken extra' :=
  fun rest alt => (rises rest alt).mono (Nat.add_le_add_left le _)

theorem RisesBelow.mono (rises : e.RisesBelow script taken extra) (le : extra ≤ extra') :
    e.RisesBelow script taken extra' :=
  fun top rest alt => (rises top rest alt).mono (Nat.add_le_add_left le _)

theorem rises_of_rise (plain : script.IsPlain) (le : script.rise ≤ extra) :
    e.Rises script taken extra :=
  fun rest alt => bounded_of_rise plain (by rw [size_append]; omega)

theorem Rises.append_shrinking (rises : e.Rises script taken extra) {instruction : Instruction}
    (plain : instruction.isPlain = true) (shrinks : instruction.pushes ≤ instruction.pops) :
    e.Rises (script ++ [instruction]) taken extra :=
  fun rest alt => (rises rest alt).append_shrinking plain shrinks

theorem Rises.verified (rises : e.Rises script taken extra) : e.Rises script.verified taken extra :=
  fun rest alt => (rises rest alt).verified

theorem Rises.alt (rises : e.Rises script taken extra) :
    e.RisesBelow (Script.wrap .alt script) taken extra := by
  intro top rest alt
  have below : e.Bounded (taken.length + rest.length + alt.length + 1 + extra)
      (script ++ [.op .fromAltStack]) ⟨taken ++ rest, top :: alt⟩ := by
    refine ((rises rest (top :: alt)).mono ?_).append_shrinking rfl (by decide)
    rw [List.length_cons]
    omega
  refine bounded_op_append rfl rfl ?_ below
  simp only [Stacks.size, List.length_cons, List.length_append]
  omega

theorem Rises.swap {a : Bytes} (rises : e.Rises script [a] extra) :
    e.RisesBelow (Script.wrap .swap script) [a] extra := by
  intro top rest alt
  have below : e.Bounded ([a].length + rest.length + alt.length + 1 + extra) script
      ⟨[a] ++ top :: rest, alt⟩ := by
    refine (rises (top :: rest) alt).mono ?_
    simp only [List.length_cons]
    omega
  exact bounded_op_append rfl rfl below.start below

theorem rises_dupIf (value : Bool) (nested : script.Nested) (positive : 1 ≤ extra)
    (rises : value = true → e.Rises script [] extra) :
    e.Rises (Script.wrap .dupIf script) [Bytes.writeBool value] extra := by
  intro rest alt
  have decided : e.Bounded (1 + rest.length + alt.length + extra)
      ([opening true] ++ script ++ [.op .endIf])
      ⟨Bytes.writeBool value :: Bytes.writeBool value :: rest, alt⟩ := by
    refine bounded_conditional nested ?_ fun yes =>
      (rises yes (Bytes.writeBool value :: rest) alt).mono ?_ <;>
    · simp only [List.length_cons, List.length_nil]
      omega
  rw [wrap_dupIf]
  refine bounded_op_append rfl rfl ?_ decided
  rw [size_append, List.length_singleton]
  omega

/-- The size of an element is zero only if the element is empty. -/
theorem rises_nonzero {top : Bytes} (nested : script.Nested) (short : top.length < 2 ^ 39)
    (positive : 1 ≤ extra) (rises : top ≠ [] → e.Rises script (top :: taken) extra) :
    e.Rises (Script.wrap .nonzero script) (top :: taken) extra := by
  intro rest alt
  have sized : e.execute? .size ⟨top :: (taken ++ rest), alt⟩ =
      some ⟨Bytes.writeNumber top.length :: top :: (taken ++ rest), alt⟩ := rfl
  have compared : e.execute? .zeroNotEqual ⟨Bytes.writeNumber top.length :: top :: (taken ++ rest), alt⟩ =
      some ⟨Bytes.writeBool (top != []) :: top :: (taken ++ rest), alt⟩ := by
    rw [execute?_zeroNotEqual, Bytes.readNumber_writeNumber, if_pos short]
    cases top <;> rfl
  have decided : e.Bounded ((top :: taken).length + rest.length + alt.length + extra)
      ([opening true] ++ script ++ [.op .endIf])
      ⟨Bytes.writeBool (top != []) :: top :: (taken ++ rest), alt⟩ := by
    refine bounded_conditional nested ?_ fun yes => rises (bne_iff_ne.mp yes) rest alt
    simp only [List.length_cons, List.length_append]
    omega
  rw [wrap_nonzero]
  refine bounded_op_append rfl sized ?_ (bounded_op_append rfl compared ?_ decided) <;>
  · simp only [Stacks.size, List.length_cons, List.length_append]
    omega

/-- A script that runs after another finds what that has left in the place of its elements. -/
theorem Rises.append (left : List Bytes → Prop) (first : e.Rises sx upper extra)
    (balanced : e.Balanced sx)
    (ran : ∀ rest alt, ∃ l, left l ∧ e.exec sx ⟨upper ++ rest, alt⟩ = some ⟨l ++ rest, alt⟩)
    (second : ∀ l rest alt, left l →
      e.Bounded (upper.length + lower.length + rest.length + alt.length + extra) script
        ⟨l ++ (lower ++ rest), alt⟩) : e.Rises (sx ++ script) (upper ++ lower) extra := by
  intro rest alt
  rw [List.append_assoc]
  refine balanced.bounded_append ((first (lower ++ rest) alt).mono ?_) fun middle done => ?_
  · rw [List.length_append, List.length_append]
    omega
  · obtain ⟨l, isLeft, exec⟩ := ran (lower ++ rest) alt
    obtain rfl := Option.some.inj (done.symm.trans exec)
    rw [List.length_append]
    exact second l rest alt isLeft

section Answers

variable {relX relY : AnswerRel} {unit answer : Bool}

theorem Rises.append_answer (first : e.Rises sx upper extra) (balanced : e.Balanced sx)
    (x : e.AnswersB relX unit sx) (run : relX answer upper)
    (second : ∀ result rest alt, Denotes unit answer result →
      e.Bounded (upper.length + lower.length + rest.length + alt.length + extra) script
        ⟨result :: (lower ++ rest), alt⟩) : e.Rises (sx ++ script) (upper ++ lower) extra := by
  let left (l : List Bytes) : Prop := ∃ result, Denotes unit answer result ∧ l = [result]
  refine first.append left balanced (fun rest alt => ?_) ?_
  · obtain ⟨result, denotes, ran⟩ := x.complete rest alt run
    exact ⟨[result], ⟨result, denotes, rfl⟩, ran⟩
  · rintro _ rest alt ⟨result, denotes, rfl⟩
    exact second result rest alt denotes

theorem Rises.andV (first : e.Rises sx upper extra) (balanced : e.Balanced sx)
    (x : e.AnswersV relX sx) (run : relX true upper) (second : e.Rises sy lower extra) :
    e.Rises (sx ++ sy) (upper ++ lower) extra := by
  refine first.append (· = []) balanced (fun rest alt => ⟨[], rfl, x.complete rest alt run⟩) ?_
  rintro _ rest alt rfl
  exact (second rest alt).mono (by omega)

/-- The second script runs below the answer of the first, and an opcode joins the answers. -/
theorem Rises.join (first : e.Rises sx upper extra) (balanced : e.Balanced sx)
    (x : e.AnswersB relX unit sx) (run : relX answer upper) (second : e.RisesBelow sy lower extra')
    (le : extra' + 1 ≤ extra) : e.Rises (sx ++ sy) (upper ++ lower) extra := by
  refine first.append_answer balanced x run fun result rest alt _ => ?_
  exact (second result rest alt).mono (by omega)

theorem Rises.orC (first : e.Rises sx upper extra) (balanced : e.Balanced sx)
    (x : e.AnswersB relX true sx) (run : relX answer upper) (nested : sy.Nested) (positive : 1 ≤ extra)
    (second : answer = false → e.Rises sy lower extra) :
    e.Rises (Script.pair .orC sx sy) (upper ++ lower) extra := by
  rw [pair_orC]
  refine first.append_answer balanced x run fun result rest alt denotes => ?_
  obtain rfl := denotes.eq_writeBool
  refine bounded_conditional nested ?_ fun no => (second no rest alt).mono (by omega)
  rw [List.length_append]
  omega

/-- The answer is only copied if the first script took an element for it. -/
theorem Rises.orD (first : e.Rises sx upper extra) (balanced : e.Balanced sx)
    (x : e.AnswersB relX true sx) (run : relX answer upper) (nested : sy.Nested) (positive : 1 ≤ extra)
    (takes : answer = true → upper ≠ []) (second : answer = false → e.Rises sy lower extra) :
    e.Rises (Script.pair .orD sx sy) (upper ++ lower) extra := by
  rw [pair_orD]
  refine first.append_answer balanced x run fun result rest alt denotes => ?_
  obtain rfl := denotes.eq_writeBool
  have start : (Stacks.mk (Bytes.writeBool answer :: (lower ++ rest)) alt).size ≤
      upper.length + lower.length + rest.length + alt.length + extra := by
    simp only [Stacks.size, List.length_cons, List.length_append]
    omega
  have copied := exec_ifDup (e := e) answer (lower ++ rest) alt
  rw [exec_op rfl] at copied
  refine bounded_op_append rfl copied start (bounded_conditional nested ?_ fun no => ?_)
  · cases answer with
    | false =>
      rw [if_neg Bool.false_ne_true, List.length_append]
      omega
    | true =>
      have := List.length_pos_iff.mpr (takes rfl)
      rw [if_pos rfl, List.length_cons, List.length_append]
      omega
  · rw [if_neg (no ▸ Bool.false_ne_true)]
    exact (second no rest alt).mono (by omega)

theorem rises_orI (value : Bool) (balanced : e.Balanced sx) (nested : sx.Nested) (nested' : sy.Nested)
    (rises : e.Rises (if value = true then sx else sy) taken extra) :
    e.Rises (Script.pair .orI sx sy) (Bytes.writeBool value :: taken) extra := by
  intro rest alt
  rw [List.length_cons]
  refine bounded_alternative balanced nested nested' ?_ ((rises rest alt).mono (by omega))
  rw [List.length_append]
  omega

theorem Rises.andOr (first : e.Rises sx upper extra) (balanced : e.Balanced sx)
    (x : e.AnswersB relX true sx) (run : relX answer upper) (balanced' : e.Balanced sz)
    (nested : sz.Nested) (nested' : sy.Nested) (positive : 1 ≤ extra)
    (second : e.Rises (if answer = false then sz else sy) lower extra) :
    e.Rises (Script.andOr sx sy sz) (upper ++ lower) extra := by
  rw [andOr_eq]
  refine first.append_answer balanced x run fun result rest alt denotes => ?_
  obtain rfl := denotes.eq_writeBool
  refine bounded_alternative balanced' nested nested' ?_ ((second rest alt).mono (by omega))
  rw [List.length_append]
  omega

end Answers

section Sum

variable {α : Type} {rels : α → AnswerRel} {scripts : α → Script}

/-- The children of a threshold run one after the other below the sum. -/
private theorem bounded_sum {items : List α} {parts : List (Bool × List Bytes)}
    (answers : ∀ x ∈ items, e.AnswersW (rels x) true (scripts x))
    (balanced : ∀ x ∈ items, e.Balanced (scripts x))
    (runs : List.Forall₂ (fun x part => rels x part.1 part.2 ∧ e.RisesBelow (scripts x) part.2 extra)
      items parts) (next : Script) {bound sum : Nat} {rest alt : List Bytes}
    (le : (parts.flatMap Prod.snd).length + rest.length + alt.length + 1 + extra ≤ bound)
    (after : ∀ sum, e.Bounded bound next ⟨Bytes.writeNumber sum :: rest, alt⟩) :
    e.Bounded bound ((items.flatMap fun x => scripts x ++ [.op .add]) ++ next)
      ⟨Bytes.writeNumber sum :: (parts.flatMap Prod.snd ++ rest), alt⟩ := by
  induction runs generalizing sum with
  | nil => exact after sum
  | @cons x part items parts head _ ih =>
    obtain ⟨answersX, answersRest⟩ := List.forall_mem_cons.mp answers
    obtain ⟨balancedX, balancedRest⟩ := List.forall_mem_cons.mp balanced
    obtain ⟨run, rises⟩ := head
    rw [List.flatMap_cons, List.length_append] at le
    rw [List.flatMap_cons, List.flatMap_cons, List.append_assoc _ _ next, List.append_assoc part.2]
    refine (balancedX.append (e.balanced_op .add rfl)).bounded_append ?_ fun middle done => ?_
    · refine ((rises _ (parts.flatMap Prod.snd ++ rest) alt).mono ?_).append_shrinking rfl (by decide)
      rw [List.length_append]
      omega
    · -- The sum must have been readable.
      obtain ⟨_, _, _, _, _, readable, _⟩ := (answersX.exec_add balancedX).mp done
      have exec : e.exec (scripts x ++ [.op .add])
          ⟨Bytes.writeNumber sum :: (part.2 ++ (parts.flatMap Prod.snd ++ rest)), alt⟩ =
            some ⟨Bytes.writeNumber (sum + part.1.toNat : Nat) :: (parts.flatMap Prod.snd ++ rest), alt⟩ :=
        (answersX.exec_add balancedX).mpr ⟨part.1, part.2, _, rfl, run, readable, rfl⟩
      obtain rfl := Option.some.inj (done.symm.trans exec)
      exact ih answersRest balancedRest (by omega)

variable (rels scripts) in
/-- The sum takes one more element, and the number that it is compared with another one. -/
theorem rises_threshold {k : Nat} {first : α} {items : List α} {own : Bool × List Bytes}
    {parts : List (Bool × List Bytes)}
    (head : e.AnswersB (rels first) true (scripts first)) (balancedHead : e.Balanced (scripts first))
    (others : ∀ x ∈ items, e.AnswersW (rels x) true (scripts x))
    (balanced : ∀ x ∈ items, e.Balanced (scripts x)) (positive : 1 ≤ extra)
    (run : rels first own.1 own.2) (rises : e.Rises (scripts first) own.2 extra)
    (runs : List.Forall₂ (fun x part => rels x part.1 part.2 ∧ e.RisesBelow (scripts x) part.2 extra)
      items parts) :
    e.Rises (Script.threshold k ((first :: items).map scripts)) ((own :: parts).flatMap Prod.snd)
      (extra + 1) := by
  rw [threshold_cons, List.flatMap_cons]
  refine (rises.mono (Nat.le_succ extra)).append_answer balancedHead head run
    fun result rest alt denotes => ?_
  obtain rfl := denotes.eq_writeBool
  rw [Bytes.writeBool_eq]
  refine bounded_sum others balanced runs _ (by omega) fun sum => ?_
  refine bounded_of_rise (by simp [Opcode.isPlain]) ?_
  rw [Script.rise, Script.rise, Script.rise, Instruction.pushes_ofNumber, Instruction.pops_ofNumber]
  change rest.length + 1 + alt.length + (1 + (1 + 0 - 2) - 0) ≤ _
  omega

end Sum

variable (e) in
/-- How a script of some base type raises the stacks. -/
def RisesAs (base : Base) (script : Script) (taken : List Bytes) (extra : Nat) : Prop :=
  match base with
  | .B | .K | .V => e.Rises script taken extra
  | .W => e.RisesBelow script taken extra

theorem RisesAs.mono {base : Base} (rises : e.RisesAs base script taken extra) (le : extra ≤ extra') :
    e.RisesAs base script taken extra' := by
  cases base with
  | B | K | V => exact Rises.mono rises le
  | W => exact RisesBelow.mono rises le

theorem risesAs_of_ne {base : Base} (stackLike : base ≠ .W) :
    e.RisesAs base script taken extra ↔ e.Rises script taken extra := by
  cases base with
  | B | K | V => rfl
  | W => exact absurd rfl stackLike

/-- A script with an answer of unit type that says no on some elements cannot say yes without any. -/
theorem AnswersB.ne_nil {relX : AnswerRel} (x : e.AnswersB relX true sx) (no : relX false lower)
    (yes : relX true upper) : upper ≠ [] := by
  rintro rfl
  obtain ⟨result, denotes, ran⟩ := x.complete lower [] yes
  obtain ⟨result', denotes', ran'⟩ := x.complete [] [] no
  rw [List.append_nil] at ran'
  cases ran.symm.trans ran'
  exact absurd (denotes.isTrue_eq.symm.trans denotes'.isTrue_eq) nofun

end Templates

end Evaluator

end LockScript
