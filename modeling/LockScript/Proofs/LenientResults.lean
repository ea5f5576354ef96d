import LockScript.Proofs.LenientConditionals
import LockScript.Proofs.Adequacy

/-! # Results of lenient runs

What the script of a condition leaves where any element can be the argument of a conditional. A `d:`
leaves the argument that it was run with, whatever that is, so answers are no longer told by yes and
no: each fragment is described by the elements that it takes and the element that it leaves.

Only one direction is needed here. Whatever a script does, its condition accounts for it.
-/

namespace LockScript

/-- Which element a fragment may leave in the place of which elements, the top one first. A fragment
that leaves nothing counts as if it had left 1. -/
abbrev ResultRel := Bytes → List Bytes → Prop

namespace ResultRel

variable {κ : Type} [PublicKey κ]

/-- The results of a leaf, which has no conditionals. -/
def ofLeaf (e : Evaluator) (l : Leaf κ Digest) (result : Bytes) (taken : List Bytes) : Prop :=
  ∃ answer, AnswerRel.ofLeaf e false l answer taken ∧
    Denotes (FragmentType.ofLeaf l).soundness.unit answer result

/-- The results of a wrapped fragment. -/
def wrap (wrapper : Wrapper) (x : ResultRel) (result : Bytes) (taken : List Bytes) : Prop :=
  match wrapper with
  | .alt | .swap => x result taken
  | .check => x result taken ∧ ∃ answer, result = Bytes.writeBool answer
  | .dupIf => taken = [result] ∧ (result.isTrue = true → x [1] [])
  | .verify => result = [1] ∧ ∃ found, found.isTrue = true ∧ x found taken
  | .nonzero => (result = [] ∧ taken = [[]]) ∨ x result taken
  | .zeroNotEqual => ∃ found, result = Bytes.writeBool found.isTrue ∧ x found taken

/-- Results of two fragments that run one after the other. -/
def Both (x y : ResultRel) (first second : Bytes) (taken : List Bytes) : Prop :=
  ∃ upper lower, taken = upper ++ lower ∧ x first upper ∧ y second lower

/-- The results of two joined fragments. -/
def pair (op : Connective) (x y : ResultRel) (result : Bytes) (taken : List Bytes) : Prop :=
  match op with
  | .andV => Both x y [1] result taken
  | .andB => ∃ first second, Both x y first second taken ∧
      result = Bytes.writeBool (first.isTrue && second.isTrue)
  | .orB => ∃ first second, Both x y first second taken ∧
      result = Bytes.writeBool (first.isTrue || second.isTrue)
  | .orD => (result.isTrue = true ∧ x result taken) ∨
      ∃ first, first.isTrue = false ∧ Both x y first result taken
  | .orC => (result = [1] ∧ ∃ first, first.isTrue = true ∧ x first taken) ∨
      ∃ first, first.isTrue = false ∧ Both x y first result taken
  | .orI => ∃ top rest, taken = top :: rest ∧ (if top.isTrue then x else y) result rest

/-- The results of an `andor`. -/
def andOr (x y z : ResultRel) (result : Bytes) (taken : List Bytes) : Prop :=
  ∃ first, Both x (if first.isTrue then y else z) first result taken

/-- The results of a `thresh`, which are true only if the numbers that its children leave add up to
`k`. -/
def threshold (k : Nat) (items : List ResultRel) (result : Bytes) (taken : List Bytes) : Prop :=
  ∃ (parts : List (Bytes × List Bytes)) (answer : Bool),
    List.Forall₂ (fun x part => x part.1 part.2) items parts ∧ taken = parts.flatMap Prod.snd ∧
    result = Bytes.writeBool answer ∧
    (answer = true → (parts.map fun part => part.1.signedValue).sum = k)

/-- The results of a fragment over those of its children. -/
def ofFragment (e : Evaluator) : Fragment κ Digest ResultRel → ResultRel
  | .leaf l => ofLeaf e l
  | .wrap w x => wrap w x
  | .pair op x y => pair op x y
  | .andOr x y z => andOr x y z
  | .thresh k items => threshold k items

end ResultRel

namespace Condition

variable {κ α : Type} [PublicKey κ] (e : Evaluator)

/-- The results of a condition, those of its fragments first. -/
def Results (t : Condition κ Digest α) : ResultRel :=
  Traversal.bottomUp (fun x items => ResultRel.ofFragment e (x.fragment.withChildren items)) t

theorem results_eq (t : Condition κ Digest α) :
    t.Results e = ResultRel.ofFragment e (t.fragment.map (Results e)) :=
  bottomUp_fragment (ResultRel.ofFragment e) t

@[simp] theorem results_leaf (note : α) (l : Leaf κ Digest) :
    (leaf note l).Results e = ResultRel.ofLeaf e l :=
  results_eq e _

@[simp] theorem results_wrap (note : α) (w : Wrapper) (x : Condition κ Digest α) :
    (wrap note w x).Results e = ResultRel.wrap w (x.Results e) :=
  results_eq e _

@[simp] theorem results_pair (note : α) (op : Connective) (x y : Condition κ Digest α) :
    (pair note op x y).Results e = ResultRel.pair op (x.Results e) (y.Results e) :=
  results_eq e _

@[simp] theorem results_andOr (note : α) (x y z : Condition κ Digest α) :
    (andOr note x y z).Results e = ResultRel.andOr (x.Results e) (y.Results e) (z.Results e) :=
  results_eq e _

@[simp] theorem results_thresh (note : α) (k : Nat) (items : List (Condition κ Digest α)) :
    (thresh note k items).Results e = ResultRel.threshold k (items.map (Results e)) :=
  results_eq e _

end Condition

/-- What has to follow a script of a base type before there is a result. -/
def Base.closing : Base → Script
  | .K => [.op .checkSig]
  | .B | .V | .W => []

/-- The stack after a script of a base type other than `W`, which leaves its result on top. -/
def Base.place (base : Base) (result : Bytes) (rest : List Bytes) : List Bytes :=
  match base with
  | .V => rest
  | .B | .K | .W => result :: rest

namespace Evaluator

variable (e : Evaluator)

/-- A script that takes elements from the top of the stack and leaves its result there. -/
def LeavesTop (base : Base) (rel : ResultRel) (script : Script) : Prop :=
  ∀ ⦃main alt out⦄, e.execLeniently (script ++ base.closing) ⟨main, alt⟩ = some out →
    ∃ taken rest result, main = taken ++ rest ∧ rel result taken ∧ (base = .V → result = [1]) ∧
      out = ⟨base.place result rest, alt⟩

/-- A script that takes elements from below the top of the stack, and leaves its result below or above
that. -/
def LeavesBelow (rel : ResultRel) (script : Script) : Prop :=
  ∀ ⦃main alt out⦄, e.execLeniently script ⟨main, alt⟩ = some out →
    ∃ top taken rest result, main = top :: (taken ++ rest) ∧ rel result taken ∧
      (out = ⟨top :: result :: rest, alt⟩ ∨ out = ⟨result :: top :: rest, alt⟩)

/-- What the base type says about where a script leaves its result. -/
def Leaves (base : Base) (rel : ResultRel) (script : Script) : Prop :=
  match base with
  | .W => e.LeavesBelow rel script
  | .B | .K | .V => e.LeavesTop base rel script

variable {e} {rel relX relY relZ : ResultRel} {base : Base} {sx sy sz script : Script}

section Base

theorem leaves_of_ne (stackLike : base ≠ .W) : e.Leaves base rel script ↔ e.LeavesTop base rel script := by
  cases base <;> first | exact Iff.rfl | exact absurd rfl stackLike

variable {main alt : List Bytes} {out : Stacks}

/-- What a script of base type `B` does. -/
theorem LeavesTop.exec (x : e.LeavesTop .B rel script)
    (ran : e.execLeniently script ⟨main, alt⟩ = some out) :
    ∃ taken rest result, main = taken ++ rest ∧ rel result taken ∧ out = ⟨result :: rest, alt⟩ := by
  rw [← List.append_nil script] at ran
  obtain ⟨taken, rest, result, shape, run, _, left⟩ := x ran
  exact ⟨taken, rest, result, shape, run, left⟩

/-- What a script of base type `V` does. -/
theorem LeavesTop.exec_verify (x : e.LeavesTop .V rel script)
    (ran : e.execLeniently script ⟨main, alt⟩ = some out) :
    ∃ taken rest, main = taken ++ rest ∧ rel [1] taken ∧ out = ⟨rest, alt⟩ := by
  rw [← List.append_nil script] at ran
  obtain ⟨taken, rest, result, shape, run, one, left⟩ := x ran
  exact ⟨taken, rest, shape, one rfl ▸ run, left⟩

/-- A script is of base type `B` by what it does. -/
theorem leavesTop_of_exec (exec : ∀ ⦃main alt out⦄, e.execLeniently script ⟨main, alt⟩ = some out →
    ∃ taken rest result, main = taken ++ rest ∧ rel result taken ∧ out = ⟨result :: rest, alt⟩) :
    e.LeavesTop .B rel script := by
  intro main alt out ran
  rw [Base.closing, List.append_nil] at ran
  obtain ⟨taken, rest, result, shape, run, left⟩ := exec ran
  have none (verifies : Base.B = .V) : result = [1] := by cases verifies
  exact ⟨taken, rest, result, shape, run, none, left⟩

end Base

/-- Without conditionals a script leaves what it always does. -/
theorem AnswersB.leavesTop {rel : AnswerRel} {unit : Bool} (base : Base) (stackLike : base = .B ∨ base = .K)
    (answers : e.AnswersB rel unit (script ++ base.closing)) (plain : script.IsPlain) :
    e.LeavesTop base (fun result taken => ∃ answer, rel answer taken ∧ Denotes unit answer result)
      script := by
  intro main alt out ran
  have closed : base.closing.IsPlain := by
    obtain rfl | rfl := stackLike <;> simp [Base.closing, Opcode.isPlain]
  rw [execLeniently_of_isPlain (Script.isPlain_append.mpr ⟨plain, closed⟩)] at ran
  obtain ⟨answer, taken, rest, result, shape, run, denotes, rfl⟩ := answers.sound ran
  refine ⟨taken, rest, result, shape, ⟨answer, run, denotes⟩, ?_, ?_⟩ <;>
    obtain rfl | rfl := stackLike
  · intro verifies
    cases verifies
  · intro verifies
    cases verifies
  · rfl
  · rfl

section Wrap

theorem LeavesTop.alt (x : e.LeavesTop .B rel script) (nested : script.Nested) :
    e.LeavesBelow (ResultRel.wrap .alt rel) (Script.wrap .alt script) := by
  intro main alt out ran
  rw [Script.wrap, List.cons_append, ← List.singleton_append,
    execLeniently_append_eq_some (Script.nested_op .toAltStack rfl)] at ran
  obtain ⟨middle, moved, ran⟩ := ran
  rw [execLeniently_op rfl] at moved
  cases main with
  | nil => cases moved
  | cons top main =>
    cases moved
    obtain ⟨middle, ran, returned⟩ := (execLeniently_append_eq_some nested).mp ran
    obtain ⟨taken, rest, result, rfl, run, rfl⟩ := x.exec ran
    rw [execLeniently_op rfl] at returned
    cases returned
    exact ⟨top, taken, rest, result, rfl, run, .inl rfl⟩

theorem LeavesTop.swap (x : e.LeavesTop .B rel script)
    (one : ∀ {result taken}, rel result taken → taken.length = 1) :
    e.LeavesBelow (ResultRel.wrap .swap rel) (Script.wrap .swap script) := by
  intro main alt out ran
  rw [Script.wrap, ← List.singleton_append,
    execLeniently_append_eq_some (Script.nested_op .swap rfl)] at ran
  obtain ⟨middle, moved, ran⟩ := ran
  rw [execLeniently_op rfl] at moved
  obtain _ | ⟨top, _ | ⟨below, main⟩⟩ := main
  · cases moved
  · cases moved
  · cases moved
    obtain ⟨taken, rest, result, split, run, rfl⟩ := x.exec ran
    obtain ⟨a, rfl⟩ := List.length_eq_one_iff.mp (one run)
    cases split
    exact ⟨top, [below], main, result, rfl, run, .inr rfl⟩

/-- The check that follows a `K` leaves a truth value. -/
theorem LeavesTop.check (x : e.LeavesTop .K rel script) (nested : script.Nested) :
    e.LeavesTop .B (ResultRel.wrap .check rel) (Script.wrap .check script) := by
  refine leavesTop_of_exec fun main alt out ran => ?_
  obtain ⟨taken, rest, result, shape, run, _, rfl⟩ := x ran
  obtain ⟨⟨main', alt'⟩, _, checked⟩ := (execLeniently_append_eq_some nested).mp ran
  have plain : Script.IsPlain [.op .checkSig] := by simp [Opcode.isPlain]
  rw [execLeniently_of_isPlain plain] at checked
  cases main' with
  | nil => cases checked
  | cons key below =>
    obtain ⟨answer, signature, rest', rfl, _, same⟩ := (exec_checkSig key below alt').mp checked
    obtain ⟨rfl, _⟩ := List.cons.inj (Stacks.mk.inj same).1
    exact ⟨taken, rest, _, shape, ⟨run, answer, rfl⟩, rfl⟩

theorem LeavesTop.dupIf (x : e.LeavesTop .V rel script) (nested : script.Nested)
    (none : ∀ {result taken}, rel result taken → taken = []) :
    e.LeavesTop .B (ResultRel.wrap .dupIf rel) (Script.wrap .dupIf script) := by
  refine leavesTop_of_exec fun main alt out ran => ?_
  rw [wrap_dupIf, execLeniently_append_eq_some (Script.nested_op .dup rfl)] at ran
  obtain ⟨middle, moved, ran⟩ := ran
  rw [execLeniently_op rfl] at moved
  cases main with
  | nil => cases moved
  | cons top main =>
    cases moved
    obtain ⟨selector, rest, split, ran⟩ := (execLeniently_conditional nested true).mp ran
    cases split
    split at ran
    next taken =>
      obtain ⟨below, rest, split, run, rfl⟩ := x.exec_verify ran
      obtain rfl := none run
      cases split
      exact ⟨[top], main, top, rfl, ⟨rfl, fun _ => run⟩, rfl⟩
    next skipped =>
      cases ran
      exact ⟨[top], main, top, rfl, ⟨rfl, fun taken => absurd taken skipped⟩, rfl⟩

theorem LeavesTop.verify (x : e.LeavesTop .B rel script) (nested : script.Nested) :
    e.LeavesTop .V (ResultRel.wrap .verify rel) (Script.wrap .verify script) := by
  intro main alt out ran
  rw [Base.closing, List.append_nil, Script.wrap, execLeniently_verified nested,
    Option.bind_eq_some_iff] at ran
  obtain ⟨middle, ran, verified⟩ := ran
  obtain ⟨taken, rest, result, rfl, run, rfl⟩ := x.exec ran
  cases value : result.isTrue with
  | false => simp [execute?, onMain?, unary, value] at verified
  | true =>
    refine ⟨taken, rest, [1], rfl, ⟨rfl, result, value, run⟩, fun _ => rfl, ?_⟩
    simpa [execute?, onMain?, unary, value, eq_comm, Base.place] using verified

/-- The script of a `j:` looks at the size of the top element before it runs the child. -/
theorem LeavesTop.nonzero (x : e.LeavesTop .B rel script) (nested : script.Nested) :
    e.LeavesTop .B (ResultRel.wrap .nonzero rel) (Script.wrap .nonzero script) := by
  refine leavesTop_of_exec fun main alt out ran => ?_
  rw [wrap_nonzero, execLeniently_append_eq_some (Script.nested_op .size rfl)] at ran
  obtain ⟨sized, measured, ran⟩ := ran
  obtain ⟨tested, compared, ran⟩ :=
    (execLeniently_append_eq_some (Script.nested_op .zeroNotEqual rfl)).mp ran
  rw [execLeniently_op rfl] at measured compared
  cases main with
  | nil => cases measured
  | cons top main =>
    cases measured
    change e.execute? .zeroNotEqual
      ⟨Bytes.writeNumber (top.length : Nat) :: top :: main, alt⟩ = some tested at compared
    rw [execute?_zeroNotEqual, Option.map_eq_some_iff] at compared
    obtain ⟨number, read, rfl⟩ := compared
    obtain rfl := (Bytes.signedValue_of_readNumber read).symm.trans (Bytes.signedValue_writeNumber _)
    obtain ⟨selector, rest, split, ran⟩ := (execLeniently_conditional nested true).mp ran
    cases split
    rw [Bytes.isTrue_writeBool] at ran
    split at ran
    next taken =>
      obtain ⟨taken, rest, result, shape, run, rfl⟩ := x.exec ran
      exact ⟨taken, rest, result, shape, .inr run, rfl⟩
    next skipped =>
      cases ran
      obtain rfl : top = [] := by simpa using skipped
      exact ⟨[[]], main, [], rfl, .inl ⟨rfl, rfl⟩, rfl⟩

theorem LeavesTop.zeroNotEqual (x : e.LeavesTop .B rel script) (nested : script.Nested) :
    e.LeavesTop .B (ResultRel.wrap .zeroNotEqual rel) (Script.wrap .zeroNotEqual script) := by
  refine leavesTop_of_exec fun main alt out ran => ?_
  obtain ⟨middle, ran, compared⟩ := (execLeniently_append_eq_some nested).mp ran
  obtain ⟨taken, rest, result, rfl, run, rfl⟩ := x.exec ran
  rw [execLeniently_op rfl, execute?_zeroNotEqual, Option.map_eq_some_iff] at compared
  obtain ⟨number, read, rfl⟩ := compared
  exact ⟨taken, rest, _, rfl, ⟨result, rfl, run⟩, by rw [Bytes.isTrue_of_readNumber read]⟩

end Wrap

section Pair

theorem LeavesTop.andV (x : e.LeavesTop .V relX sx) (nested : sx.Nested) (y : e.LeavesTop base relY sy) :
    e.LeavesTop base (ResultRel.pair .andV relX relY) (Script.pair .andV sx sy) := by
  intro main alt out ran
  rw [Script.pair, List.append_assoc, execLeniently_append_eq_some nested] at ran
  obtain ⟨middle, first, second⟩ := ran
  obtain ⟨upper, rest, rfl, runX, rfl⟩ := x.exec_verify first
  obtain ⟨lower, rest, result, rfl, runY, one, rfl⟩ := y second
  exact ⟨upper ++ lower, rest, result, (List.append_assoc ..).symm, ⟨upper, lower, rfl, runX, runY⟩, one,
    rfl⟩

/-- Two children that both run, the second below the result of the first, and an opcode that joins
their results in either order. -/
private theorem LeavesTop.join (x : e.LeavesTop .B relX sx) (nestedX : sx.Nested)
    (y : e.LeavesBelow relY sy) (nestedY : sy.Nested) (opcode : Opcode) (plain : opcode.isPlain = true)
    (combine : Bool → Bool → Bool) (symmetric : ∀ a b, combine a b = combine b a)
    (computes : ∀ store, e.execute? opcode store = (binary (fun a b => do
      return [Bytes.writeBool (combine ((← a.readNumber) != 0) ((← b.readNumber) != 0))])
        store.main).map (⟨·, store.alt⟩)) :
    e.LeavesTop .B (fun result taken => ∃ first second, ResultRel.Both relX relY first second taken ∧
      result = Bytes.writeBool (combine first.isTrue second.isTrue)) (sx ++ sy ++ [.op opcode]) := by
  have joins {a b : Bytes} {rest alt : List Bytes} {out : Stacks}
      (ran : e.execute? opcode ⟨a :: b :: rest, alt⟩ = some out) :
      out = ⟨Bytes.writeBool (combine a.isTrue b.isTrue) :: rest, alt⟩ := by
    simp only [computes, binary, Option.map_eq_some_iff, Option.bind_eq_bind,
      Option.bind_eq_some_iff, pure, Option.some.injEq] at ran
    obtain ⟨_, ⟨_, ⟨m, readA, n, readB, rfl⟩, rfl⟩, rfl⟩ := ran
    rw [Bytes.isTrue_of_readNumber readA, Bytes.isTrue_of_readNumber readB]
    rfl
  refine leavesTop_of_exec fun main alt out ran => ?_
  obtain ⟨middle, ran, joined⟩ := (execLeniently_append_eq_some (nestedX.append nestedY)).mp ran
  obtain ⟨middle, first, second⟩ := (execLeniently_append_eq_some nestedX).mp ran
  obtain ⟨upper, rest, resultX, rfl, runX, rfl⟩ := x.exec first
  obtain ⟨top, lower, rest, resultY, split, runY, left⟩ := y second
  obtain ⟨rfl, rfl⟩ := List.cons.inj split
  rw [execLeniently_op plain] at joined
  refine ⟨upper ++ lower, rest, _, (List.append_assoc ..).symm,
    ⟨resultX, resultY, ⟨upper, lower, rfl, runX, runY⟩, rfl⟩, ?_⟩
  obtain rfl | rfl := left
  · exact joins joined
  · rw [symmetric]
    exact joins joined

theorem LeavesTop.andB (x : e.LeavesTop .B relX sx) (nestedX : sx.Nested)
    (y : e.LeavesBelow relY sy) (nestedY : sy.Nested) :
    e.LeavesTop .B (ResultRel.pair .andB relX relY) (Script.pair .andB sx sy) :=
  x.join nestedX y nestedY .boolAnd rfl (· && ·) Bool.and_comm fun _ => rfl

theorem LeavesTop.orB (x : e.LeavesTop .B relX sx) (nestedX : sx.Nested)
    (y : e.LeavesBelow relY sy) (nestedY : sy.Nested) :
    e.LeavesTop .B (ResultRel.pair .orB relX relY) (Script.pair .orB sx sy) :=
  x.join nestedX y nestedY .boolOr rfl (· || ·) Bool.or_comm fun _ => rfl

/-- Whatever the first child of an `or_d` left, the second runs if and only if that is not true, and
then nothing is kept of it. -/
theorem LeavesTop.orD (x : e.LeavesTop .B relX sx) (nestedX : sx.Nested)
    (y : e.LeavesTop .B relY sy) (nestedY : sy.Nested) :
    e.LeavesTop .B (ResultRel.pair .orD relX relY) (Script.pair .orD sx sy) := by
  refine leavesTop_of_exec fun main alt out ran => ?_
  rw [pair_orD, execLeniently_append_eq_some nestedX] at ran
  obtain ⟨middle, first, ran⟩ := ran
  obtain ⟨upper, rest, result, rfl, runX, rfl⟩ := x.exec first
  obtain ⟨middle, doubled, ran⟩ := (execLeniently_append_eq_some (Script.nested_op .ifDup rfl)).mp ran
  rw [execLeniently_op rfl] at doubled
  cases value : result.isTrue with
  | true =>
    obtain rfl : middle = ⟨result :: result :: rest, alt⟩ := by
      simpa [execute?, onMain?, unary, value, eq_comm] using doubled
    obtain ⟨selector, below, split, ran⟩ := (execLeniently_conditional nestedY false).mp ran
    cases split
    rw [if_neg (by simp [value])] at ran
    cases ran
    exact ⟨upper, rest, result, rfl, .inl ⟨value, runX⟩, rfl⟩
  | false =>
    obtain rfl : middle = ⟨result :: rest, alt⟩ := by
      simpa [execute?, onMain?, unary, value, eq_comm] using doubled
    obtain ⟨selector, below, split, ran⟩ := (execLeniently_conditional nestedY false).mp ran
    cases split
    rw [if_pos value] at ran
    obtain ⟨lower, rest, resultY, rfl, runY, rfl⟩ := y.exec ran
    exact ⟨upper ++ lower, rest, resultY, (List.append_assoc ..).symm,
      .inr ⟨result, value, upper, lower, rfl, runX, runY⟩, rfl⟩

theorem LeavesTop.orC (x : e.LeavesTop .B relX sx) (nestedX : sx.Nested)
    (y : e.LeavesTop .V relY sy) (nestedY : sy.Nested) :
    e.LeavesTop .V (ResultRel.pair .orC relX relY) (Script.pair .orC sx sy) := by
  intro main alt out ran
  rw [Base.closing, List.append_nil, pair_orC, execLeniently_append_eq_some nestedX] at ran
  obtain ⟨middle, first, ran⟩ := ran
  obtain ⟨upper, rest, result, rfl, runX, rfl⟩ := x.exec first
  obtain ⟨selector, below, split, ran⟩ := (execLeniently_conditional nestedY false).mp ran
  cases split
  split at ran
  next refused =>
    obtain ⟨lower, rest, rfl, runY, rfl⟩ := y.exec_verify ran
    exact ⟨upper ++ lower, rest, [1], (List.append_assoc ..).symm,
      .inr ⟨result, refused, upper, lower, rfl, runX, runY⟩, fun _ => rfl, rfl⟩
  next passed =>
    cases ran
    exact ⟨upper, rest, [1], rfl, .inl ⟨rfl, result, Bool.not_eq_false _ ▸ passed, runX⟩, fun _ => rfl, rfl⟩

theorem LeavesTop.orI (x : e.LeavesTop base relX sx) (nestedX : sx.Nested)
    (y : e.LeavesTop base relY sy) (nestedY : sy.Nested) :
    e.LeavesTop base (ResultRel.pair .orI relX relY) (Script.pair .orI sx sy) := by
  intro main alt out ran
  obtain ⟨top, below, rfl, chosen⟩ :=
    (execLeniently_alternative nestedX nestedY true base.closing).mp ran
  cases value : top.isTrue with
  | true =>
    rw [if_pos value] at chosen
    obtain ⟨taken, rest, result, rfl, run, one, rfl⟩ := x chosen
    exact ⟨top :: taken, rest, result, rfl, ⟨top, taken, rfl, by rwa [if_pos value]⟩, one, rfl⟩
  | false =>
    rw [if_neg (by simp [value])] at chosen
    obtain ⟨taken, rest, result, rfl, run, one, rfl⟩ := y chosen
    exact ⟨top :: taken, rest, result, rfl, ⟨top, taken, rfl, by rwa [if_neg (by simp [value])]⟩, one, rfl⟩

end Pair

theorem LeavesTop.andOr (x : e.LeavesTop .B relX sx) (nestedX : sx.Nested)
    (y : e.LeavesTop base relY sy) (nestedY : sy.Nested) (z : e.LeavesTop base relZ sz)
    (nestedZ : sz.Nested) :
    e.LeavesTop base (ResultRel.andOr relX relY relZ) (Script.andOr sx sy sz) := by
  intro main alt out ran
  rw [andOr_eq, List.append_assoc, execLeniently_append_eq_some nestedX] at ran
  obtain ⟨middle, first, ran⟩ := ran
  obtain ⟨upper, rest, selector, rfl, runX, rfl⟩ := x.exec first
  obtain ⟨top, below, split, ran⟩ := (execLeniently_alternative nestedZ nestedY false base.closing).mp ran
  cases split
  cases value : selector.isTrue with
  | true =>
    rw [if_neg (by simp [value])] at ran
    obtain ⟨lower, rest, result, rfl, run, one, rfl⟩ := y ran
    exact ⟨upper ++ lower, rest, result, (List.append_assoc ..).symm,
      ⟨selector, upper, lower, rfl, runX, by rwa [if_pos value]⟩, one, rfl⟩
  | false =>
    rw [if_pos value] at ran
    obtain ⟨lower, rest, result, rfl, run, one, rfl⟩ := z ran
    exact ⟨upper ++ lower, rest, result, (List.append_assoc ..).symm,
      ⟨selector, upper, lower, rfl, runX, by rwa [if_neg (by simp [value])]⟩, one, rfl⟩

section Sum

variable {α : Type} {rels : α → ResultRel} {scripts : α → Script}

/-- The children of a threshold other than the first add what they leave to what is there. -/
private theorem execLeniently_sum {items : List α} (leaves : ∀ x ∈ items, e.LeavesBelow (rels x) (scripts x))
    (nested : ∀ x ∈ items, (scripts x).Nested) {sum : Bytes} {main alt : List Bytes} {out : Stacks}
    (ran : e.execLeniently (items.flatMap fun x => scripts x ++ [.op .add]) ⟨sum :: main, alt⟩ = some out) :
    ∃ parts below total, List.Forall₂ (fun x part => rels x part.1 part.2) items parts ∧
      main = parts.flatMap Prod.snd ++ below ∧ out = ⟨total :: below, alt⟩ ∧
      total.signedValue = sum.signedValue + (parts.map fun part => part.1.signedValue).sum := by
  induction items generalizing sum main with
  | nil =>
    cases ran
    exact ⟨[], main, sum, .nil, rfl, rfl, by simp⟩
  | cons x rest ih =>
    obtain ⟨leavesX, leavesRest⟩ := List.forall_mem_cons.mp leaves
    obtain ⟨nestedX, nestedRest⟩ := List.forall_mem_cons.mp nested
    rw [List.flatMap_cons, List.append_assoc, execLeniently_append_eq_some nestedX] at ran
    obtain ⟨middle, ranX, ran⟩ := ran
    obtain ⟨middle', added, ran⟩ := (execLeniently_append_eq_some (Script.nested_op .add rfl)).mp ran
    obtain ⟨top, taken, left, result, split, run, shape⟩ := leavesX ranX
    obtain ⟨rfl, rfl⟩ := List.cons.inj split
    -- The two numbers may lie in either order.
    have adds {a b : Bytes} (added : e.execute? .add ⟨a :: b :: left, alt⟩ = some middle') :
        middle' = ⟨Bytes.writeNumber (a.signedValue + b.signedValue) :: left, alt⟩ := by
      simp only [execute?, onMain?, binary, Option.map_eq_some_iff, Option.bind_eq_bind,
        Option.bind_eq_some_iff, pure, Option.some.injEq] at added
      obtain ⟨_, ⟨_, ⟨m, readA, n, readB, rfl⟩, rfl⟩, rfl⟩ := added
      rw [Bytes.signedValue_of_readNumber readA, Bytes.signedValue_of_readNumber readB]
      rfl
    have summed : middle' =
        ⟨Bytes.writeNumber (sum.signedValue + result.signedValue) :: left, alt⟩ := by
      rw [execLeniently_op rfl] at added
      obtain rfl | rfl := shape
      · exact adds added
      · rw [Int.add_comm]
        exact adds added
    subst summed
    obtain ⟨parts, below, total, runs, rfl, rfl, same⟩ := ih leavesRest nestedRest ran
    refine ⟨(result, taken) :: parts, below, total, .cons run runs, (List.append_assoc ..).symm, rfl, ?_⟩
    rw [same, Bytes.signedValue_writeNumber, List.map_cons, List.sum_cons, Int.add_assoc]

/-- A `thresh` adds up all results and compares the sum with `k`. -/
theorem LeavesTop.threshold {k : Nat} {first : α} {rest : List α}
    (head : e.LeavesTop .B (rels first) (scripts first)) (nestedHead : (scripts first).Nested)
    (others : ∀ x ∈ rest, e.LeavesBelow (rels x) (scripts x)) (nested : ∀ x ∈ rest, (scripts x).Nested) :
    e.LeavesTop .B (ResultRel.threshold k ((first :: rest).map rels))
      (Script.threshold k ((first :: rest).map scripts)) := by
  refine leavesTop_of_exec fun main alt out ran => ?_
  have nestedSum : Script.Nested (rest.flatMap fun x => scripts x ++ [.op .add]) :=
    Script.nested_flatMap fun x member => (nested x member).append (Script.nested_op .add rfl)
  rw [threshold_cons, execLeniently_append_eq_some nestedHead] at ran
  obtain ⟨middle, ranHead, ran⟩ := ran
  obtain ⟨middle', summed, compared⟩ := (execLeniently_append_eq_some nestedSum).mp ran
  obtain ⟨taken, left, result, rfl, run, rfl⟩ := head.exec ranHead
  obtain ⟨parts, below, total, runs, rfl, rfl, same⟩ := execLeniently_sum others nested summed
  have plain : Script.IsPlain [.ofNumber k, .op .equal] := by
    simp [Script.isPlain_cons, Opcode.isPlain]
  rw [execLeniently_of_isPlain plain, exec_cons_ofNumber, exec_op rfl] at compared
  refine ⟨taken ++ parts.flatMap Prod.snd, below, Bytes.writeBool (Bytes.writeNumber k == total),
    (List.append_assoc ..).symm, ⟨(result, taken) :: parts, _, ?_, rfl, rfl, fun equal => ?_⟩, ?_⟩
  · rw [List.forall₂_map_left_iff]
    exact .cons run runs
  · rw [← beq_iff_eq.mp equal, Bytes.signedValue_writeNumber] at same
    rw [List.map_cons, List.sum_cons, ← same]
  · exact (Option.some.inj compared).symm

end Sum

end Evaluator

namespace Typed

open Evaluator

variable {κ : Type} [PublicKey κ] {context : Context} {e : Evaluator}

/-- The script of a condition leaves the results of the condition where its type says. -/
def Leaves (e : Evaluator) (context : Context) (t : Typed κ Digest) : Prop :=
  e.Leaves t.type.soundness.base (t.Results e) (t.script context)

namespace Validated

/-- A fragment takes the elements that its type says, whatever it leaves. -/
theorem results_allowed {t : Typed κ Digest} (valid : Validated context t) {result : Bytes}
    {taken : List Bytes} (run : t.Results e result taken) : t.type.soundness.input.Allows taken := by
  induction t using Typed.induct generalizing result taken with
  | leaf note l =>
    rw [Condition.results_leaf] at run
    obtain ⟨answer, run, _⟩ := run
    rw [← Condition.answers_leaf e false note] at run
    exact valid.allows run
  | wrap note w x ih =>
    have validX := valid.wrap.1
    rw [Condition.results_wrap] at run
    change note.type.soundness.input.Allows taken
    rw [valid.input_wrap]
    cases w with
    | alt | swap => trivial
    | check => exact ih validX run.1
    | dupIf => exact congrArg List.length run.1
    | verify =>
      obtain ⟨_, _, _, run⟩ := run
      exact ih validX run
    | nonzero =>
      obtain ⟨_, rfl⟩ | run := run
      · exact Input.allows_singleton (valid.input_of_wrap.2 rfl) []
      · exact ih validX run
    | zeroNotEqual =>
      obtain ⟨_, _, run⟩ := run
      exact ih validX run
  | pair note op x y ihX ihY =>
    obtain ⟨validX, validY, _⟩ := valid.pair
    rw [Condition.results_pair] at run
    change note.type.soundness.input.Allows taken
    rw [valid.input_pair]
    have both {first second : Bytes} {taken : List Bytes}
        (run : ResultRel.Both (x.Results e) (y.Results e) first second taken) :
        (x.type.soundness.input.sequence y.type.soundness.input).Allows taken := by
      obtain ⟨upper, lower, rfl, left, right⟩ := run
      exact (ihX validX left).append (ihY validY right)
    cases op with
    | andV => exact both run
    | andB =>
      obtain ⟨first, second, parts, _⟩ := run
      exact both parts
    | orB =>
      obtain ⟨first, second, ⟨upper, lower, rfl, left, right⟩, _⟩ := run
      exact (ihX validX left).orB (ihY validY right)
    | orD =>
      obtain ⟨_, left⟩ | ⟨first, _, upper, lower, rfl, left, right⟩ := run
      · exact (ihX validX left).orInput_left
      · exact (ihX validX left).orInput_append (ihY validY right)
    | orC =>
      obtain ⟨_, first, _, left⟩ | ⟨first, _, upper, lower, rfl, left, right⟩ := run
      · exact (ihX validX left).orInput_left
      · exact (ihX validX left).orInput_append (ihY validY right)
    | orI =>
      obtain ⟨top, rest, rfl, chosen⟩ := run
      split at chosen
      · exact (ihX validX chosen).orI_left
      · exact (ihY validY chosen).orI_right
  | andOr note x y z ihX ihY ihZ =>
    obtain ⟨validX, validY, validZ, _⟩ := valid.andOr
    rw [Condition.results_andOr] at run
    change note.type.soundness.input.Allows taken
    rw [valid.input_andOr]
    obtain ⟨first, upper, lower, rfl, left, right⟩ := run
    split at right
    · exact (ihX validX left).andOr_second (ihY validY right)
    · exact (ihX validX left).andOr_third (ihZ validZ right)
  | thresh note k items ih =>
    rw [Condition.results_thresh] at run
    change note.type.soundness.input.Allows taken
    rw [valid.input_thresh]
    obtain ⟨parts, _, runs, rfl, _⟩ := run
    rw [List.forall₂_map_left_iff] at runs
    have each : List.Forall₂ Input.Allows (items.map fun x : Typed κ Digest => x.type.soundness.input)
        (parts.map Prod.snd) := by
      rw [List.forall₂_map_left_iff, List.forall₂_map_right_iff]
      exact forall₂_imp_of_mem (fun x member part _ run => ih x member (valid.thresh.1 x member) run) runs
    exact List.flatMap_def (l := parts) ▸ Input.Allows.threshold each

variable {note : Attributes}

private theorem leaves_leaf (same : e.scheme = context.scheme) {l : Leaf κ Digest}
    (valid : Validated context (.leaf note l)) : Leaves e context (.leaf note l) := by
  have answers := valid.adequate same
  have typed := valid.leaf.2
  have plain := Script.isPlain_ofLeaf context l
  rw [Typed.Adequate, Condition.answers_leaf, Condition.script_leaf] at answers
  rw [Typed.Leaves, Condition.results_leaf, Condition.script_leaf]
  change e.Adequate _ note.type.soundness.base note.type.soundness.unit _ at answers
  change e.Leaves note.type.soundness.base _ _
  rw [← typed] at answers ⊢
  cases l with
  | key k | keyHash k => exact AnswersB.leavesTop .K (.inr rfl) answers plain
  | _ => exact AnswersB.leavesTop .B (.inl rfl) (answersB_append_nil.mpr answers) plain

private theorem leaves_wrap {w : Wrapper} {x : Typed κ Digest} (valid : Validated context (.wrap note w x))
    (below : x.Leaves e context) : Leaves e context (.wrap note w x) := by
  have validX := valid.wrap.1
  have nested := Script.nested_script context x
  rw [Typed.Leaves, Condition.results_wrap, Condition.script_wrap]
  change e.Leaves note.type.soundness.base _ _
  rw [Typed.Leaves] at below
  cases w with
  | alt =>
    obtain ⟨base, same⟩ := Soundness.alt_eq_ok.mp valid.soundness_wrap
    simp only [base, Evaluator.Leaves] at below
    rw [← same]
    exact below.alt nested
  | swap =>
    obtain ⟨base, one, same⟩ := Soundness.swap_eq_ok.mp valid.soundness_wrap
    simp only [base, Evaluator.Leaves] at below
    rw [← same]
    exact below.swap fun run => (validX.results_allowed run).of_isOne one
  | check =>
    obtain ⟨base, same⟩ := Soundness.check_eq_ok.mp valid.soundness_wrap
    simp only [base, Evaluator.Leaves] at below
    rw [← same]
    exact below.check nested
  | dupIf =>
    obtain ⟨base, none, same⟩ := Soundness.dupIf_eq_ok.mp valid.soundness_wrap
    simp only [base, Evaluator.Leaves] at below
    rw [← same]
    refine below.dupIf nested fun run => ?_
    have taken := validX.results_allowed run
    rwa [none] at taken
  | verify =>
    obtain ⟨base, same⟩ := Soundness.verify_eq_ok.mp valid.soundness_wrap
    simp only [base, Evaluator.Leaves] at below
    rw [← same]
    exact below.verify nested
  | nonzero =>
    obtain ⟨base, _, same⟩ := Soundness.nonzero_eq_ok.mp valid.soundness_wrap
    simp only [base, Evaluator.Leaves] at below
    rw [← same]
    simp only [Evaluator.Leaves, base]
    exact below.nonzero nested
  | zeroNotEqual =>
    obtain ⟨base, same⟩ := Soundness.zeroNotEqual_eq_ok.mp valid.soundness_wrap
    simp only [base, Evaluator.Leaves] at below
    rw [← same]
    simp only [Evaluator.Leaves, base]
    exact below.zeroNotEqual nested

private theorem leaves_pair {op : Connective} {x y : Typed κ Digest}
    (valid : Validated context (.pair note op x y)) (first : x.Leaves e context)
    (second : y.Leaves e context) : Leaves e context (.pair note op x y) := by
  have nestedX := Script.nested_script context x
  have nestedY := Script.nested_script context y
  rw [Typed.Leaves, Condition.results_pair, Condition.script_pair]
  change e.Leaves note.type.soundness.base _ _
  rw [Typed.Leaves] at first second
  cases op with
  | andV =>
    obtain ⟨baseX, stackLike, same⟩ := Soundness.andV_eq_ok.mp valid.soundness_pair
    simp only [baseX, Evaluator.Leaves] at first
    rw [← same]
    exact (leaves_of_ne stackLike).mpr (first.andV nestedX ((leaves_of_ne stackLike).mp second))
  | andB =>
    obtain ⟨baseX, baseY, same⟩ := Soundness.andB_eq_ok.mp valid.soundness_pair
    simp only [baseX, Evaluator.Leaves] at first
    simp only [baseY, Evaluator.Leaves] at second
    rw [← same]
    exact first.andB nestedX second nestedY
  | orB =>
    obtain ⟨baseX, baseY, _, _, same⟩ := Soundness.orB_eq_ok.mp valid.soundness_pair
    simp only [baseX, Evaluator.Leaves] at first
    simp only [baseY, Evaluator.Leaves] at second
    rw [← same]
    exact first.orB nestedX second nestedY
  | orD =>
    obtain ⟨_, _, baseX, baseY, same⟩ := Soundness.orD_eq_ok.mp valid.soundness_pair
    simp only [baseX, Evaluator.Leaves] at first
    simp only [baseY, Evaluator.Leaves] at second
    rw [← same]
    exact first.orD nestedX second nestedY
  | orC =>
    obtain ⟨_, _, baseX, baseY, same⟩ := Soundness.orC_eq_ok.mp valid.soundness_pair
    simp only [baseX, Evaluator.Leaves] at first
    simp only [baseY, Evaluator.Leaves] at second
    rw [← same]
    exact first.orC nestedX second nestedY
  | orI =>
    obtain ⟨equal, stackLike, same⟩ := Soundness.orI_eq_ok.mp valid.soundness_pair
    rw [equal, leaves_of_ne stackLike] at first
    rw [← same]
    exact (leaves_of_ne stackLike).mpr (first.orI nestedX ((leaves_of_ne stackLike).mp second) nestedY)

private theorem leaves_andOr {x y z : Typed κ Digest} (valid : Validated context (.andOr note x y z))
    (first : x.Leaves e context) (second : y.Leaves e context) (third : z.Leaves e context) :
    Leaves e context (.andOr note x y z) := by
  rw [Typed.Leaves, Condition.results_andOr, Condition.script_andOr]
  change e.Leaves note.type.soundness.base _ _
  rw [Typed.Leaves] at first second third
  obtain ⟨_, _, baseX, equal, stackLike, same⟩ := Soundness.andOr_eq_ok.mp valid.soundness_andOr
  simp only [baseX, Evaluator.Leaves] at first
  rw [equal, leaves_of_ne stackLike] at second
  rw [← same]
  exact (leaves_of_ne stackLike).mpr (first.andOr (Script.nested_script context x) second
    (Script.nested_script context y) ((leaves_of_ne stackLike).mp third) (Script.nested_script context z))

private theorem leaves_thresh {k : Nat} {items : List (Typed κ Digest)}
    (valid : Validated context (.thresh note k items)) (below : ∀ x ∈ items, x.Leaves e context) :
    Leaves e context (.thresh note k items) := by
  obtain ⟨_, positive, bounded, _⟩ := valid.thresh
  obtain ⟨first, rest, rfl⟩ := List.exists_cons_of_length_pos (Nat.lt_of_lt_of_le positive bounded)
  obtain ⟨base, bases, _, same⟩ := Soundness.threshold_eq_ok.mp valid.soundness_thresh
  rw [Typed.Leaves, Condition.results_thresh, Condition.script_thresh]
  change e.Leaves note.type.soundness.base _ _
  rw [← same]
  obtain ⟨head, others⟩ := List.forall_mem_cons.mp below
  simp only [List.map_map, List.forall_mem_map, Function.comp_apply] at bases
  refine LeavesTop.threshold ?_ (Script.nested_script context first) (fun x member => ?_)
    fun x _ => Script.nested_script context x
  · rw [Typed.Leaves] at head
    simpa only [base, Evaluator.Leaves] using head
  · have leaves := others x member
    rw [Typed.Leaves] at leaves
    simpa only [bases x member, Evaluator.Leaves] using leaves

/-- The script of every validated condition leaves the results of the condition. -/
theorem leaves (same : e.scheme = context.scheme) {t : Typed κ Digest} (valid : Validated context t) :
    t.Leaves e context := by
  induction t using Typed.induct with
  | leaf note l => exact valid.leaves_leaf same
  | wrap note w x ih => exact valid.leaves_wrap (ih valid.wrap.1)
  | pair note op x y ihX ihY => exact valid.leaves_pair (ihX valid.pair.1) (ihY valid.pair.2.1)
  | andOr note x y z ihX ihY ihZ =>
    obtain ⟨validX, validY, validZ, _⟩ := valid.andOr
    exact valid.leaves_andOr (ihX validX) (ihY validY) (ihZ validZ)
  | thresh note k items ih =>
    exact valid.leaves_thresh fun x member => ih x member (valid.thresh.1 x member)

end Validated

end Typed

end LockScript
