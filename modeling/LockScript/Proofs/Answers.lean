import LockScript.Proofs.Execution
import LockScript.Proofs.Typing

/-! # Answers of conditions

What the script of a condition does with a stack, told without the script: which elements it takes
from the top, and whether its answer is then yes or no. A fragment answers through the answers of its
children, so the relation is a bottom-up pass like the script itself.

A run is regular if a fragment only answers no where all children that ran answered no, and yes
without more children saying so than it takes. Third parties can turn other runs into regular ones.
-/

namespace LockScript

theorem forall₂_imp_of_mem {α β : Type} {R S : α → β → Prop} {items : List α} {others : List β}
    (imp : ∀ x ∈ items, ∀ y ∈ others, R x y → S x y) (related : List.Forall₂ R items others) :
    List.Forall₂ S items others := by
  induction related with
  | nil => exact .nil
  | cons head _ ih =>
    refine .cons (imp _ List.mem_cons_self _ List.mem_cons_self head) (ih fun x member y among => ?_)
    exact imp x (List.mem_cons_of_mem _ member) y (List.mem_cons_of_mem _ among)

theorem exists_of_mem_forall₂ {α β : Type} {R : α → β → Prop} {items : List α} {others : List β}
    (related : List.Forall₂ R items others) {y : β} (member : y ∈ others) : ∃ x ∈ items, R x y := by
  induction related with
  | nil => cases member
  | @cons x _ items _ head _ ih =>
    obtain rfl | member := List.mem_cons.mp member
    · exact ⟨x, List.mem_cons_self, head⟩
    · obtain ⟨x, among, found⟩ := ih member
      exact ⟨x, List.mem_cons_of_mem _ among, found⟩

/-- What is only said of regular runs, or of a yes, is said of nothing else. -/
theorem of_false_eq_true {P : Prop} (equal : false = true) : P :=
  absurd equal Bool.false_ne_true

/-- Which answers a fragment may give on which elements, the top one first. -/
abbrev AnswerRel := Bool → List Bytes → Prop

namespace Evaluator

variable (e : Evaluator)

/-- How many of the keys the signatures in the same places are by, if no check aborts. -/
def countSigs? : (keys signatures : List Bytes) → Option Nat
  | [], [] => some 0
  | key :: keys, signature :: signatures => do
    let passed ← e.sigVerdict? key signature
    return passed.toNat + (← countSigs? keys signatures)
  | _, _ => none

end Evaluator

namespace AnswerRel

variable {κ : Type} [PublicKey κ] (e : Evaluator) (regular : Bool)

/-- The answers of a leaf. A `pk_k` or `pk_h` leaves its answer to the check that follows, and takes
the signature for it. -/
def ofLeaf (leaf : Leaf κ Digest) (answer : Bool) (taken : List Bytes) : Prop :=
  match leaf with
  | .one => answer = true ∧ taken = []
  | .zero => answer = false ∧ taken = []
  | .key k => ∃ signature, taken = [signature] ∧
      e.sigVerdict? (PublicKey.pushed e.scheme k) signature = some answer
  | .keyHash k => ∃ key signature, taken = [key, signature] ∧
      HashKind.hash .hash160 key = PublicKey.hash e.scheme k ∧
      e.sigVerdict? key signature = some answer
  | .after lock => answer = true ∧ taken = [] ∧ e.meetsAfter lock.value = true
  | .older lock => answer = true ∧ taken = [] ∧ e.meetsOlder lock.value = true
  | .digest d => ∃ secret, taken = [secret] ∧ secret.length = 32 ∧
      answer = (d.kind.hash secret == d.bytes)
  | .multi ks => ∃ signatures, taken = signatures ++ [[]] ∧ signatures.length = ks.k ∧
      e.verdict? (e.checkSigs signatures.reverse (ks.items.map (PublicKey.pushed e.scheme)))
        signatures = some answer
  | .multiA ks => ∃ count,
      e.countSigs? (ks.items.map (PublicKey.pushed e.scheme)) taken = some count ∧
      answer = (count == ks.k) ∧ (regular = true → count = 0 ∨ count = ks.k)

/-- The answers of a wrapped fragment. -/
def wrap (wrapper : Wrapper) (x : AnswerRel) (answer : Bool) (taken : List Bytes) : Prop :=
  match wrapper with
  | .alt | .swap | .check | .zeroNotEqual => x answer taken
  | .dupIf => (answer = false ∧ taken = [[]]) ∨ (answer = true ∧ taken = [[1]] ∧ x true [])
  | .verify => answer = true ∧ x true taken
  | .nonzero => (answer = false ∧ taken = [[]]) ∨
      ∃ top rest, taken = top :: rest ∧ top ≠ [] ∧ top.length < 2 ^ 39 ∧ x answer taken ∧
        (regular = true → answer = true)

/-- Answers of two fragments that run one after the other. -/
def Both (x y : AnswerRel) (first second : Bool) (taken : List Bytes) : Prop :=
  ∃ upper lower, taken = upper ++ lower ∧ x first upper ∧ y second lower

/-- The answers of two joined fragments. -/
def pair (op : Connective) (x y : AnswerRel) (answer : Bool) (taken : List Bytes) : Prop :=
  match op with
  | .andV => Both x y true answer taken ∧ (regular = true → answer = true)
  | .andB => ∃ first second, Both x y first second taken ∧ answer = (first && second) ∧
      (regular = true → first = second)
  | .orB => ∃ first second, Both x y first second taken ∧ answer = (first || second) ∧
      (regular = true → first = false ∨ second = false)
  | .orD | .orC => (answer = true ∧ x true taken) ∨ Both x y false answer taken
  | .orI => ∃ rest, (taken = [1] :: rest ∧ x answer rest) ∨ (taken = [] :: rest ∧ y answer rest)

/-- The answers of an `andor`. -/
def andOr (x y z : AnswerRel) (answer : Bool) (taken : List Bytes) : Prop :=
  (Both x y true answer taken ∧ (regular = true → answer = true)) ∨ Both x z false answer taken

/-- The answers of a `thresh`. What the children answered is added up child by child, in numbers that
must stay readable. -/
def threshold (k : Nat) (items : List AnswerRel) (answer : Bool) (taken : List Bytes) : Prop :=
  ∃ parts : List (Bool × List Bytes),
    List.Forall₂ (fun x part => x part.1 part.2) items parts ∧ taken = parts.flatMap Prod.snd ∧
    parts.dropLast.countP Prod.fst < 2 ^ 39 ∧ answer = (parts.countP Prod.fst == k) ∧
    (regular = true → parts.countP Prod.fst = 0 ∨ parts.countP Prod.fst = k)

/-- The answers of a fragment over those of its children. -/
def ofFragment : Fragment κ Digest AnswerRel → AnswerRel
  | .leaf l => ofLeaf e regular l
  | .wrap w x => wrap regular w x
  | .pair op x y => pair regular op x y
  | .andOr x y z => andOr regular x y z
  | .thresh k items => threshold regular k items

end AnswerRel

namespace Condition

variable {κ α : Type} [PublicKey κ] (e : Evaluator) (regular : Bool)

/-- The answers of a condition, those of its fragments first. -/
def Answers (t : Condition κ Digest α) : AnswerRel :=
  Traversal.bottomUp (fun x items => AnswerRel.ofFragment e regular (x.fragment.withChildren items)) t

theorem answers_eq (t : Condition κ Digest α) :
    t.Answers e regular = AnswerRel.ofFragment e regular (t.fragment.map (Answers e regular)) :=
  bottomUp_fragment (AnswerRel.ofFragment e regular) t

@[simp] theorem answers_leaf (note : α) (l : Leaf κ Digest) :
    (leaf note l).Answers e regular = AnswerRel.ofLeaf e regular l :=
  answers_eq e regular _

@[simp] theorem answers_wrap (note : α) (w : Wrapper) (x : Condition κ Digest α) :
    (wrap note w x).Answers e regular = AnswerRel.wrap regular w (x.Answers e regular) :=
  answers_eq e regular _

@[simp] theorem answers_pair (note : α) (op : Connective) (x y : Condition κ Digest α) :
    (pair note op x y).Answers e regular =
      AnswerRel.pair regular op (x.Answers e regular) (y.Answers e regular) :=
  answers_eq e regular _

@[simp] theorem answers_andOr (note : α) (x y z : Condition κ Digest α) :
    (andOr note x y z).Answers e regular =
      AnswerRel.andOr regular (x.Answers e regular) (y.Answers e regular) (z.Answers e regular) :=
  answers_eq e regular _

@[simp] theorem answers_thresh (note : α) (k : Nat) (items : List (Condition κ Digest α)) :
    (thresh note k items).Answers e regular =
      AnswerRel.threshold regular k (items.map (Answers e regular)) :=
  answers_eq e regular _

end Condition

namespace Input

/-- Which elements an input allows to be taken. -/
def Allows : Input → List Bytes → Prop
  | .zero, taken => taken = []
  | .one, taken | .oneNonzero, taken => taken.length = 1
  | .anyNonzero, taken => taken ≠ []
  | .any, _ => True

theorem Allows.of_isOne {input : Input} {taken : List Bytes} (one : input.isOne = true)
    (allowed : input.Allows taken) : taken.length = 1 := by
  cases input <;> first | exact allowed | cases one

theorem Allows.of_isNonzero {input : Input} {taken : List Bytes} (nonzero : input.isNonzero = true)
    (allowed : input.Allows taken) : taken ≠ [] := by
  cases input with
  | oneNonzero =>
    rintro rfl
    cases allowed
  | anyNonzero => exact allowed
  | zero | one | any => cases nonzero

/-- What takes an element that is not zero may take one alone. -/
theorem allows_singleton {input : Input} (nonzero : input.isNonzero = true) (element : Bytes) :
    input.Allows [element] := by
  cases input with
  | oneNonzero => rfl
  | anyNonzero => exact List.cons_ne_nil element []
  | zero | one | any => cases nonzero

/-- Below two, the number that an input counts for is the number of elements taken. -/
theorem Allows.length_eq {input : Input} {taken : List Bytes} (few : input.count < 2)
    (allowed : input.Allows taken) : taken.length = input.count := by
  cases input with
  | zero => exact congrArg List.length allowed
  | one | oneNonzero => exact allowed
  | any | anyNonzero => exact absurd few (by decide)

theorem Allows.append {x y : Input} {upper lower : List Bytes} (first : x.Allows upper)
    (second : y.Allows lower) : (x.sequence y).Allows (upper ++ lower) := by
  cases x <;> cases y <;> simp_all [Input.sequence, Allows] <;> grind

variable {x y z : Input} {upper lower taken : List Bytes}

theorem Allows.orB (first : x.Allows upper) (second : y.Allows lower) :
    (Soundness.orBInput x y).Allows (upper ++ lower) := by
  cases x <;> cases y <;> simp_all [Soundness.orBInput, Allows, Input.isOne]

theorem Allows.orInput_left (first : x.Allows taken) : (Soundness.orInput x y).Allows taken := by
  cases x <;> cases y <;> simp_all [Soundness.orInput, Allows, Input.isOne]

theorem Allows.orInput_append (first : x.Allows upper) (second : y.Allows lower) :
    (Soundness.orInput x y).Allows (upper ++ lower) := by
  cases x <;> cases y <;> simp_all [Soundness.orInput, Allows, Input.isOne]

theorem Allows.orI_left {top : Bytes} (first : x.Allows taken) :
    (Soundness.orIInput x y).Allows (top :: taken) := by
  cases x <;> cases y <;> simp_all [Soundness.orIInput, Allows]

theorem Allows.orI_right {top : Bytes} (second : y.Allows taken) :
    (Soundness.orIInput x y).Allows (top :: taken) := by
  cases x <;> cases y <;> simp_all [Soundness.orIInput, Allows]

theorem Allows.andOr_second (first : x.Allows upper) (second : y.Allows lower) :
    (Soundness.andOrInput x y z).Allows (upper ++ lower) := by
  cases x <;> cases y <;> cases z <;> simp_all [Soundness.andOrInput, Allows, Input.isOne]

theorem Allows.andOr_third (first : x.Allows upper) (third : z.Allows lower) :
    (Soundness.andOrInput x y z).Allows (upper ++ lower) := by
  cases x <;> cases y <;> cases z <;> simp_all [Soundness.andOrInput, Allows, Input.isOne]

theorem Allows.threshold {inputs : List Input} {parts : List (List Bytes)}
    (each : List.Forall₂ Allows inputs parts) :
    (Soundness.thresholdInput inputs).Allows parts.flatten := by
  have total (few : sumOf Input.count inputs < 2) :
      parts.flatten.length = sumOf Input.count inputs := by
    induction each with
    | nil => rfl
    | cons first _ ih =>
      simp only [sumOf] at few ⊢
      rw [List.flatten_cons, List.length_append, ih (by omega), first.length_eq (by omega)]
  unfold Soundness.thresholdInput
  split
  next none => exact List.length_eq_zero_iff.mp ((total (by omega)).trans none)
  next one => exact (total (by omega)).trans one
  next => trivial

end Input

namespace Typed.Validated

variable {κ : Type} [PublicKey κ] {context : Context} {e : Evaluator} {regular : Bool}

/-- A run takes the elements that the type says. -/
theorem allows {t : Typed κ Digest} (valid : Validated context t) {answer : Bool}
    {taken : List Bytes} (run : t.Answers e regular answer taken) :
    t.type.soundness.input.Allows taken := by
  induction t using Typed.induct generalizing answer taken with
  | leaf note l =>
    rw [Condition.answers_leaf] at run
    change note.type.soundness.input.Allows taken
    rw [← valid.leaf.2]
    cases l with
    | one | zero => exact run.2
    | after lock | older lock => exact run.2.1
    | key k =>
      obtain ⟨signature, rfl, _⟩ := run
      rfl
    | keyHash k =>
      obtain ⟨key, signature, rfl, _⟩ := run
      exact List.cons_ne_nil key [signature]
    | digest d =>
      obtain ⟨secret, rfl, _⟩ := run
      rfl
    | multi ks =>
      obtain ⟨signatures, rfl, _⟩ := run
      exact List.append_ne_nil_of_right_ne_nil signatures (List.cons_ne_nil _ _)
    | multiA ks => trivial
  | wrap note w x ih =>
    have validX := valid.wrap.1
    rw [Condition.answers_wrap] at run
    change note.type.soundness.input.Allows taken
    rw [valid.input_wrap]
    cases w with
    | alt | swap => trivial
    | check | zeroNotEqual => exact ih validX run
    | dupIf => obtain ⟨_, rfl⟩ | ⟨_, rfl, _⟩ := run <;> rfl
    | verify => exact ih validX run.2
    | nonzero =>
      obtain ⟨_, rfl⟩ | ⟨top, rest, _, _, _, below, _⟩ := run
      · exact Input.allows_singleton (valid.input_of_wrap.2 rfl) []
      · exact ih validX below
  | pair note op x y ihX ihY =>
    obtain ⟨validX, validY, _⟩ := valid.pair
    rw [Condition.answers_pair] at run
    change note.type.soundness.input.Allows taken
    rw [valid.input_pair]
    have both {first second : Bool} {taken : List Bytes}
        (run : AnswerRel.Both (x.Answers e regular) (y.Answers e regular) first second taken) :
        (x.type.soundness.input.sequence y.type.soundness.input).Allows taken := by
      obtain ⟨upper, lower, rfl, left, right⟩ := run
      exact (ihX validX left).append (ihY validY right)
    cases op with
    | andV => exact both run.1
    | andB =>
      obtain ⟨first, second, parts, _⟩ := run
      exact both parts
    | orB =>
      obtain ⟨first, second, ⟨upper, lower, rfl, left, right⟩, _⟩ := run
      exact (ihX validX left).orB (ihY validY right)
    | orD | orC =>
      obtain ⟨_, left⟩ | ⟨upper, lower, rfl, left, right⟩ := run
      · exact (ihX validX left).orInput_left
      · exact (ihX validX left).orInput_append (ihY validY right)
    | orI =>
      obtain ⟨rest, ⟨rfl, left⟩ | ⟨rfl, right⟩⟩ := run
      · exact (ihX validX left).orI_left
      · exact (ihY validY right).orI_right
  | andOr note x y z ihX ihY ihZ =>
    obtain ⟨validX, validY, validZ, _⟩ := valid.andOr
    rw [Condition.answers_andOr] at run
    change note.type.soundness.input.Allows taken
    rw [valid.input_andOr]
    obtain ⟨⟨upper, lower, rfl, left, right⟩, _⟩ | ⟨upper, lower, rfl, left, right⟩ := run
    · exact (ihX validX left).andOr_second (ihY validY right)
    · exact (ihX validX left).andOr_third (ihZ validZ right)
  | thresh note k items ih =>
    rw [Condition.answers_thresh] at run
    change note.type.soundness.input.Allows taken
    rw [valid.input_thresh]
    obtain ⟨parts, runs, rfl, _⟩ := run
    rw [List.forall₂_map_left_iff] at runs
    have each : List.Forall₂ Input.Allows (items.map fun x : Typed κ Digest => x.type.soundness.input)
        (parts.map Prod.snd) := by
      rw [List.forall₂_map_left_iff, List.forall₂_map_right_iff]
      exact forall₂_imp_of_mem (fun x member part _ run => ih x member (valid.thresh.1 x member) run) runs
    exact List.flatMap_def (l := parts) ▸ Input.Allows.threshold each

end Typed.Validated

end LockScript
