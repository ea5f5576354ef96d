import LockScript.Proofs.LeafScripts
import LockScript.Proofs.StackDepth

/-! # Reading short numbers

By the rules of consensus only the lock opcodes read numbers of five bytes, and all others stop at four,
where the interpreter reads five everywhere. A script only reads short numbers if its parts do, and leave
short elements for each other.
-/

namespace LockScript

/-- How many elements an opcode reads as numbers, apart from locks and from what the checks of several
signatures count. -/
def Opcode.operands : Opcode → Nat
  | .zeroNotEqual => 1
  | .add | .boolAnd | .boolOr | .numEqual | .numEqualVerify => 2
  | _ => 0

/-- How many elements an instruction reads as numbers. -/
def Instruction.operands : Instruction → Nat
  | .op opcode => opcode.operands
  | .push _ | .small _ => 0

namespace Instruction

@[simp] theorem operands_op (opcode : Opcode) : (op opcode).operands = opcode.operands := rfl

@[simp] theorem operands_push (data : Bytes) : (push data).operands = 0 := rfl

@[simp] theorem operands_ofNumber (number : Nat) : (ofNumber number).operands = 0 := by
  unfold ofNumber
  split <;> rfl

end Instruction

/-- Whether an element is short enough for a number. -/
def Bytes.isNarrow (element : Bytes) : Bool :=
  decide (element.length ≤ 4)

theorem Bytes.isNarrow_writeNumber (number : Nat) : (writeNumber number).isNarrow = true ↔ number < 2 ^ 31 :=
  decide_eq_true_iff.trans (length_writeNumber_le number 3)

@[simp] theorem Bytes.isNarrow_writeBool (value : Bool) : (writeBool value).isNarrow = true := by
  cases value <;> rfl

namespace Evaluator

variable (e : Evaluator)

/-- Whether the operands of an instruction are short, if it runs. -/
def takesNarrow (m : Machine) (instruction : Instruction) : Bool :=
  !m.branches.all id || (m.store.main.take instruction.operands).all Bytes.isNarrow

/-- Whether the operands are short at every instruction that a run reaches. -/
def readsNarrow : Script → Machine → Bool
  | [], _ => true
  | first :: rest, m => takesNarrow m first && (e.step m first).all (readsNarrow rest)

variable {e}

section Runs

variable {script first second : Script} {instruction : Instruction} {m : Machine} {store : Stacks}
  {branches : List Bool}

theorem takesNarrow_of_none (none : instruction.operands = 0) : takesNarrow m instruction = true := by
  rw [takesNarrow, none, List.take_zero, List.all_nil, Bool.or_true]

theorem takesNarrow_skipped (skipped : m.branches.all id = false) : takesNarrow m instruction = true := by
  rw [takesNarrow, skipped, Bool.not_false, Bool.true_or]

theorem readsNarrow_append : e.readsNarrow (first ++ second) m =
    (e.readsNarrow first m && (e.run first m).all (e.readsNarrow second)) := by
  induction first generalizing m with
  | nil => exact (Bool.true_and _).symm
  | cons instruction rest ih =>
    rw [List.cons_append, readsNarrow, readsNarrow, run_cons]
    cases e.step m instruction with
    | none => simp
    | some n =>
      simp only [Option.all_some, Option.bind_some, ih, Bool.and_assoc]

theorem readsNarrow_singleton : e.readsNarrow [instruction] m = takesNarrow m instruction := by
  rw [readsNarrow]
  cases e.step m instruction <;> exact Bool.and_true _

theorem readsNarrow_concat (none : instruction.operands = 0) :
    e.readsNarrow (script ++ [instruction]) m = e.readsNarrow script m := by
  rw [readsNarrow_append]
  cases e.run script m with
  | none => exact Bool.and_true _
  | some n => rw [Option.all_some, readsNarrow_singleton, takesNarrow_of_none none, Bool.and_true]

/-- Without operands nothing is read. -/
theorem readsNarrow_of_none (none : ∀ instruction ∈ script, instruction.operands = 0) :
    e.readsNarrow script m = true := by
  induction script generalizing m with
  | nil => rfl
  | cons instruction rest ih =>
    obtain ⟨head, others⟩ := List.forall_mem_cons.mp none
    rw [readsNarrow, takesNarrow_of_none head, Bool.true_and]
    cases e.step m instruction with
    | none => rfl
    | some n => exact ih others

/-- Where a branch around a script is skipped nothing is read. -/
theorem readsNarrow_skipped (nested : script.Nested) (skipped : branches.all id = false) :
    e.readsNarrow script ⟨store, branches⟩ = true := by
  have run (inner : List Bool) {depth : Nat}
      (counted : script.foldlM Instruction.nest inner.length = some depth) :
      e.readsNarrow script ⟨store, inner ++ branches⟩ = true := by
    clear nested
    induction script generalizing inner with
    | nil => rfl
    | cons instruction rest ih =>
      rw [List.foldlM_cons] at counted
      obtain ⟨middle, counted, others⟩ := Option.bind_eq_some_iff.mp counted
      have nothing : (inner ++ branches).all id = false := by
        rw [List.all_append, skipped, Bool.and_false]
      rw [readsNarrow, takesNarrow_skipped nothing, Bool.true_and]
      cases ran : e.step ⟨store, inner ++ branches⟩ instruction with
      | none => rfl
      | some n =>
        obtain ⟨inner', rfl, rfl⟩ := step_skipped skipped counted ran
        exact ih inner' others
  exact run [] (nested 0)

/-- Folding `v:` into the last opcode keeps its operands. -/
theorem readsNarrow_verified : e.readsNarrow script.verified m = e.readsNarrow script m := by
  unfold Script.verified
  split
  next opcode last =>
    split
    next verifying pair =>
      obtain ⟨front, rfl⟩ := List.getLast?_eq_some_iff.mp last
      have same : (Instruction.op verifying).operands = (Instruction.op opcode).operands := by
        cases opcode <;> cases pair <;> rfl
      rw [List.dropLast_concat, readsNarrow_append, readsNarrow_append]
      cases e.run front m with
      | none => rfl
      | some n =>
        rw [Option.all_some, Option.all_some, readsNarrow_singleton, readsNarrow_singleton, takesNarrow,
          takesNarrow, same]
    next => exact readsNarrow_concat rfl
  next => exact readsNarrow_concat rfl

end Runs

variable (e) in
/-- The operands are short wherever a script runs from the given stacks. -/
def Reads (script : Script) (store : Stacks) : Prop :=
  ∀ branches, branches.all id = true → e.readsNarrow script ⟨store, branches⟩ = true

section Reads

variable {script first second x y : Script} {store : Stacks} {main alt : List Bytes}

theorem reads_of_none (none : ∀ instruction ∈ script, instruction.operands = 0) : e.Reads script store :=
  fun _ _ => readsNarrow_of_none none

theorem reads_op {opcode : Opcode}
    (narrow : ∀ element ∈ main.take opcode.operands, element.isNarrow = true) :
    e.Reads [.op opcode] ⟨main, alt⟩ := by
  intro branches active
  rw [readsNarrow_singleton, takesNarrow]
  exact Bool.or_eq_true_iff.mpr (.inr (List.all_eq_true.mpr narrow))

theorem Reads.verified (reads : e.Reads script store) : e.Reads script.verified store :=
  fun branches active => readsNarrow_verified.trans (reads branches active)

theorem Reads.concat (reads : e.Reads script store) {instruction : Instruction}
    (none : instruction.operands = 0) : e.Reads (script ++ [instruction]) store :=
  fun branches active => (readsNarrow_concat none).trans (reads branches active)

theorem Balanced.reads_append (balanced : e.Balanced first) (reads : e.Reads first store)
    (reads' : ∀ middle, e.exec first store = some middle → e.Reads second middle) :
    e.Reads (first ++ second) store := by
  intro branches active
  rw [readsNarrow_append, reads branches active, balanced store branches, if_pos active, Bool.true_and]
  cases done : e.exec first store with
  | none => rfl
  | some middle => exact reads' middle done branches active

/-- An opcode in front that does not read numbers. -/
theorem reads_op_append {opcode : Opcode} (plain : opcode.isPlain = true) (none : opcode.operands = 0)
    (reads : ∀ middle, e.execute? opcode store = some middle → e.Reads script middle) :
    e.Reads ([.op opcode] ++ script) store := by
  have first : e.Reads [.op opcode] store := reads_of_none (List.forall_mem_singleton.mpr none)
  refine (e.balanced_op opcode plain).reads_append first fun middle done => reads middle ?_
  rwa [exec_op plain] at done

/-- Numbers are only read in a branch that runs. -/
private theorem readsNarrow_branch (nested : script.Nested) {branch : Bool} {branches : List Bool}
    (active : branches.all id = true) (reads : branch = true → e.Reads script store) :
    e.readsNarrow script ⟨store, branch :: branches⟩ = true := by
  cases branch with
  | true => exact reads rfl (true :: branches) active
  | false => exact readsNarrow_skipped nested rfl

private theorem readsNarrow_opening {wanted : Bool} {branches : List Bool} (active : branches.all id = true)
    (next : Script) (reads : ∀ value rest, main = Bytes.writeBool value :: rest →
      e.readsNarrow next ⟨⟨rest, alt⟩, (value == wanted) :: branches⟩ = true) :
    e.readsNarrow ([opening wanted] ++ next) ⟨⟨main, alt⟩, branches⟩ = true := by
  have none : (opening wanted).operands = 0 := by cases wanted <;> rfl
  rw [List.singleton_append, readsNarrow, takesNarrow_of_none none, Bool.true_and, step_opening, openBranch?,
    if_pos active]
  cases opened : condition? main with
  | none => rfl
  | some outcome =>
    obtain ⟨value, rest⟩ := outcome
    exact reads value rest (condition?_eq_some.mp opened)

/-- A conditional with one branch reads what the branch reads, if that runs. -/
theorem reads_conditional {wanted : Bool} (nested : x.Nested)
    (reads : ∀ rest, main = Bytes.writeBool wanted :: rest → e.Reads x ⟨rest, alt⟩) :
    e.Reads ([opening wanted] ++ x ++ [.op .endIf]) ⟨main, alt⟩ := by
  intro branches active
  rw [readsNarrow_concat rfl]
  refine readsNarrow_opening active x fun value rest shape => readsNarrow_branch nested active fun same => ?_
  exact reads rest (beq_iff_eq.mp same ▸ shape)

/-- The turn to the other branch, which runs if the one before was skipped. -/
private theorem readsNarrow_else (nested : y.Nested) {branch : Bool} {branches : List Bool}
    (active : branches.all id = true) (reads : branch = false → e.Reads y store) :
    e.readsNarrow ([.op .else] ++ y) ⟨store, branch :: branches⟩ = true := by
  rw [List.singleton_append, readsNarrow, takesNarrow_of_none rfl, Bool.true_and]
  exact readsNarrow_branch nested active fun other => reads (Bool.not_eq_true' branch ▸ other)

/-- A conditional with two branches reads what the branch reads that runs. -/
theorem reads_alternative {wanted : Bool} (balanced : e.Balanced x) (nested : x.Nested) (nested' : y.Nested)
    (reads : ∀ value rest, main = Bytes.writeBool value :: rest →
      e.Reads (if value = wanted then x else y) ⟨rest, alt⟩) :
    e.Reads ([opening wanted] ++ x ++ [.op .else] ++ y ++ [.op .endIf]) ⟨main, alt⟩ := by
  intro branches active
  rw [readsNarrow_concat rfl, List.append_assoc, List.append_assoc]
  refine readsNarrow_opening active _ fun value rest shape => ?_
  have chosen := reads value rest shape
  rw [readsNarrow_append, balanced, List.all_cons, id, active, Bool.and_true]
  by_cases same : value = wanted
  · rw [if_pos same] at chosen
    rw [if_pos (beq_iff_eq.mpr same), readsNarrow_branch nested active fun _ => chosen, Bool.true_and]
    cases e.exec x ⟨rest, alt⟩ with
    | none => rfl
    | some middle =>
      exact readsNarrow_else nested' active fun skipped => absurd same (beq_eq_false_iff_ne.mp skipped)
  · rw [if_neg same] at chosen
    have skipped : (value == wanted) = false := beq_eq_false_iff_ne.mpr same
    rw [skipped, if_neg Bool.false_ne_true, readsNarrow_skipped nested rfl, Bool.true_and]
    exact readsNarrow_else nested' active fun _ => chosen

end Reads

variable (e) in
/-- What a script of some base type leaves for others to read is short: the element on top for a `B`, and
for a `W` the two on top, if the one that was there is. -/
def LeavesNarrow (base : Base) (script : Script) : Prop :=
  match base with
  | .B => ∀ ⦃main alt result rest alt'⦄, e.exec script ⟨main, alt⟩ = some ⟨result :: rest, alt'⟩ →
    result.isNarrow = true
  | .W => ∀ ⦃top main alt a b rest alt'⦄, top.isNarrow = true →
    e.exec script ⟨top :: main, alt⟩ = some ⟨a :: b :: rest, alt'⟩ → a.isNarrow = true ∧ b.isNarrow = true
  | .K | .V => True

section Results

variable {rel relX relY relZ : AnswerRel} {unit unitX unitY : Bool} {script sx sy sz : Script} {base : Base}

/-- Truth values are short. -/
theorem AnswersB.leavesNarrow (x : e.AnswersB rel true script) : e.LeavesNarrow .B script := by
  intro main alt result rest alt' ran
  obtain ⟨answer, taken, below, found, _, _, denotes, same⟩ := x.sound ran
  cases same
  rw [denotes.eq_writeBool]
  exact Bytes.isNarrow_writeBool answer

/-- A lock leaves its number. -/
theorem leavesNarrow_lock {value : Nat} (narrow : value < 2 ^ 31) {opcode : Opcode}
    (lock : opcode = .checkLockTimeVerify ∨ opcode = .checkSequenceVerify) :
    e.LeavesNarrow .B [.ofNumber value, .op opcode] := by
  intro main alt result rest alt' ran
  have plain : opcode.isPlain = true := by
    obtain rfl | rfl := lock <;> rfl
  rw [exec_cons_ofNumber, exec_op plain] at ran
  obtain rfl : result = Bytes.writeNumber value := by
    obtain rfl | rfl := lock <;>
    · obtain ⟨out, tested, same⟩ := Option.map_eq_some_iff.mp ran
      obtain ⟨left, passed, rfl⟩ := Option.map_eq_some_iff.mp tested
      obtain ⟨_, _, met⟩ := Option.bind_eq_some_iff.mp passed
      obtain ⟨_, shape⟩ := Option.ite_none_right_eq_some.mp met
      cases shape
      cases same
      rfl
  exact (Bytes.isNarrow_writeNumber value).mpr narrow

theorem LeavesNarrow.alt (leaves : e.LeavesNarrow .B script) (x : e.AnswersB rel unit script)
    (balanced : e.Balanced script) : e.LeavesNarrow .W (Script.wrap .alt script) := by
  intro top main alt a b rest alt' narrow ran
  rw [Script.wrap, List.cons_append, exec_cons_op rfl] at ran
  obtain ⟨middle, ran, returned⟩ := balanced.exec_append_eq_some.mp ran
  have ran' := ran
  obtain ⟨answer, taken, below, result, _, _, _, rfl⟩ := x.sound ran
  rw [exec_op rfl] at returned
  cases returned
  exact ⟨narrow, leaves ran'⟩

theorem LeavesNarrow.swap (leaves : e.LeavesNarrow .B script) (x : e.AnswersB rel unit script)
    (one : ∀ {answer taken}, rel answer taken → taken.length = 1) :
    e.LeavesNarrow .W (Script.wrap .swap script) := by
  intro top main alt a b rest alt' narrow ran
  rw [Script.wrap, exec_cons_op rfl] at ran
  cases main with
  | nil => cases ran
  | cons below main =>
    change e.exec script ⟨below :: top :: main, alt⟩ = _ at ran
    refine ⟨leaves ran, ?_⟩
    obtain ⟨answer, taken, others, result, split, run, _, same⟩ := x.sound ran
    obtain ⟨element, rfl⟩ := List.length_eq_one_iff.mp (one run)
    cases split
    cases same
    exact narrow

theorem LeavesNarrow.nonzero (leaves : e.LeavesNarrow .B script) (balanced : e.Balanced script) :
    e.LeavesNarrow .B (Script.wrap .nonzero script) := by
  intro main alt result rest alt' ran
  rw [wrap_nonzero] at ran
  cases main with
  | nil =>
    rw [List.singleton_append, exec_cons_op rfl] at ran
    cases ran
  | cons top main =>
    obtain ⟨_, ran⟩ := (exec_sizeTest top main alt _).mp ran
    obtain ⟨value, below, split, ran⟩ := (balanced.exec_conditional true).mp ran
    obtain ⟨same, rfl⟩ := List.cons.inj split
    obtain rfl := Bytes.writeBool_inj.mp same
    split at ran
    next => exact leaves ran
    next empty =>
      cases ran
      rw [bne_iff_ne, not_not] at empty
      rw [empty]
      rfl

/-- What comes last leaves the result. -/
theorem LeavesNarrow.append (leaves : e.LeavesNarrow .B sy) (balanced : e.Balanced sx) :
    e.LeavesNarrow .B (sx ++ sy) := by
  intro main alt result rest alt' ran
  obtain ⟨middle, _, ran⟩ := balanced.exec_append_eq_some.mp ran
  exact leaves ran

theorem LeavesNarrow.orD (leaves : e.LeavesNarrow .B sy) (x : e.AnswersB relX true sx)
    (balancedX : e.Balanced sx) (balancedY : e.Balanced sy) :
    e.LeavesNarrow .B (Script.pair .orD sx sy) := by
  intro main alt result rest alt' ran
  rw [pair_orD] at ran
  obtain ⟨middle, first, ran⟩ := balancedX.exec_append_eq_some.mp ran
  obtain ⟨answer, upper, below, found, _, _, denotes, rfl⟩ := x.sound first
  obtain rfl := denotes.eq_writeBool
  rw [(e.balanced_op .ifDup rfl).exec_append, exec_ifDup] at ran
  obtain ⟨value, others, split, ran⟩ := (balancedY.exec_conditional false).mp ran
  obtain ⟨same, rfl⟩ := List.cons.inj split
  obtain rfl := Bytes.writeBool_inj.mp same
  cases answer with
  | true =>
    cases ran
    rfl
  | false => exact leaves ran

/-- Of two branches, either leaves the result. -/
theorem LeavesNarrow.alternative (leaves : e.LeavesNarrow .B sx) (leaves' : e.LeavesNarrow .B sy)
    (balanced : e.Balanced sx) (balanced' : e.Balanced sy) (wanted : Bool) :
    e.LeavesNarrow .B ([opening wanted] ++ sx ++ [.op .else] ++ sy ++ [.op .endIf]) := by
  intro main alt result rest alt' ran
  rw [← List.append_nil (_ ++ [Instruction.op Opcode.endIf])] at ran
  obtain ⟨value, below, _, ran⟩ := (balanced.exec_alternative balanced' wanted []).mp ran
  rw [List.append_nil] at ran
  split at ran
  · exact leaves ran
  · exact leaves' ran

end Results

/-- The sizes of elements are short numbers. -/
def ShortSizes (main : List Bytes) : Prop :=
  ∀ element ∈ main, element.length < 2 ^ 31

theorem ShortSizes.of_append {taken rest : List Bytes} (short : ShortSizes (taken ++ rest)) : ShortSizes rest :=
  fun element member => short element (List.mem_append_right taken member)

theorem ShortSizes.cons {top : Bytes} {rest : List Bytes} (short : ShortSizes rest)
    (narrow : top.isNarrow = true) : ShortSizes (top :: rest) :=
  List.forall_mem_cons.mpr ⟨Nat.lt_of_le_of_lt (decide_eq_true_iff.mp narrow) (by decide), short⟩

variable (e) in
/-- A script only reads short numbers, whatever elements of short sizes it starts with. -/
def ReadsShort (script : Script) : Prop :=
  ∀ main alt, ShortSizes main → e.Reads script ⟨main, alt⟩

section Templates

variable {rel relX relY : AnswerRel} {unit unitX unitY : Bool} {script sx sy sz : Script}

theorem readsShort_of_none (none : ∀ instruction ∈ script, instruction.operands = 0) : e.ReadsShort script :=
  fun _ _ _ => reads_of_none none

theorem ReadsShort.alt (x : e.ReadsShort script) : e.ReadsShort (Script.wrap .alt script) := by
  intro main alt short
  change e.Reads ([.op .toAltStack] ++ (script ++ [.op .fromAltStack])) _
  refine reads_op_append rfl rfl fun middle moved => ?_
  cases main with
  | nil => cases moved
  | cons top main =>
    cases moved
    exact (x main (top :: alt) (List.forall_mem_cons.mp short).2).concat rfl

theorem ReadsShort.swap (x : e.ReadsShort script) : e.ReadsShort (Script.wrap .swap script) := by
  intro main alt short
  change e.Reads ([.op .swap] ++ script) _
  refine reads_op_append rfl rfl fun middle moved => ?_
  obtain _ | ⟨top, _ | ⟨below, main⟩⟩ := main
  · cases moved
  · cases moved
  · cases moved
    obtain ⟨first, second, rest⟩ : _ ∧ _ ∧ ShortSizes main := by simpa [ShortSizes] using short
    exact x _ alt (List.forall_mem_cons.mpr ⟨second, List.forall_mem_cons.mpr ⟨first, rest⟩⟩)

theorem ReadsShort.check (x : e.ReadsShort script) : e.ReadsShort (Script.wrap .check script) :=
  fun main alt short => (x main alt short).concat rfl

theorem ReadsShort.verify (x : e.ReadsShort script) : e.ReadsShort (Script.wrap .verify script) :=
  fun main alt short => (x main alt short).verified

theorem ReadsShort.dupIf (x : e.ReadsShort script) (nested : script.Nested) :
    e.ReadsShort (Script.wrap .dupIf script) := by
  intro main alt short
  rw [wrap_dupIf]
  refine reads_op_append rfl rfl fun middle moved => ?_
  cases main with
  | nil => cases moved
  | cons top main =>
    cases moved
    refine reads_conditional nested fun rest shape => ?_
    obtain ⟨_, rfl⟩ := List.cons.inj shape
    exact x _ alt short

/-- A `j:` reads the size of the top element. -/
theorem ReadsShort.nonzero (x : e.ReadsShort script) (nested : script.Nested) :
    e.ReadsShort (Script.wrap .nonzero script) := by
  intro main alt short
  rw [wrap_nonzero]
  refine reads_op_append rfl rfl fun middle sized => ?_
  cases main with
  | nil => cases sized
  | cons top main =>
    cases sized
    have size : (Bytes.writeNumber (top.length : Nat)).isNarrow = true :=
      (Bytes.isNarrow_writeNumber _).mpr (short top List.mem_cons_self)
    refine (e.balanced_op .zeroNotEqual rfl).reads_append (reads_op ?_) fun middle compared => ?_
    · exact List.forall_mem_singleton.mpr size
    · rw [exec_op rfl] at compared
      change e.execute? .zeroNotEqual ⟨Bytes.writeNumber (top.length : Nat) :: top :: main, alt⟩ = _ at compared
      rw [execute?_zeroNotEqual, Option.map_eq_some_iff] at compared
      obtain ⟨number, _, rfl⟩ := compared
      refine reads_conditional nested fun rest shape => ?_
      obtain ⟨_, rfl⟩ := List.cons.inj shape
      exact x _ alt short

/-- What runs after a `B` finds its answer on top. -/
theorem AnswersB.reads_append (x : e.AnswersB rel unit sx) (balanced : e.Balanced sx)
    (leaves : e.LeavesNarrow .B sx) (reads : e.ReadsShort sx)
    (next : ∀ answer result rest alt, Denotes unit answer result → result.isNarrow = true →
      ShortSizes rest → e.Reads sy ⟨result :: rest, alt⟩) : e.ReadsShort (sx ++ sy) := by
  intro main alt short
  refine balanced.reads_append (reads main alt short) fun middle ran => ?_
  have ran' := ran
  obtain ⟨answer, taken, rest, result, rfl, _, denotes, rfl⟩ := x.sound ran
  exact next answer result rest alt denotes (leaves ran') short.of_append

theorem AnswersB.reads_zeroNotEqual (x : e.AnswersB rel unit script) (balanced : e.Balanced script)
    (leaves : e.LeavesNarrow .B script) (reads : e.ReadsShort script) :
    e.ReadsShort (Script.wrap .zeroNotEqual script) :=
  x.reads_append balanced leaves reads fun _ _ _ _ _ narrow _ => reads_op (List.forall_mem_singleton.mpr narrow)

theorem AnswersV.reads_andV (x : e.AnswersV rel sx) (balanced : e.Balanced sx) (reads : e.ReadsShort sx)
    (reads' : e.ReadsShort sy) : e.ReadsShort (Script.pair .andV sx sy) := by
  intro main alt short
  refine balanced.reads_append (reads main alt short) fun middle ran => ?_
  obtain ⟨taken, rest, rfl, _, rfl⟩ := x.sound ran
  exact reads' rest alt short.of_append

/-- An opcode that joins two answers, one of them below the other. -/
theorem AnswersW.reads_join (y : e.AnswersW relY unitY sy) (balanced : e.Balanced sy)
    (leaves : e.LeavesNarrow .W sy) (reads : e.ReadsShort sy) {opcode : Opcode} (two : opcode.operands = 2)
    {top : Bytes} {main alt : List Bytes} (narrow : top.isNarrow = true) (short : ShortSizes main) :
    e.Reads (sy ++ [.op opcode]) ⟨top :: main, alt⟩ := by
  refine balanced.reads_append (reads _ alt (short.cons narrow)) fun middle ran => ?_
  have ran' := ran
  obtain ⟨_, _, taken, rest, result, _, _, _, rfl | rfl⟩ := y.sound ran <;>
  · obtain ⟨first, second⟩ := leaves narrow ran'
    refine reads_op ?_
    rw [two]
    exact List.forall_mem_cons.mpr ⟨first, List.forall_mem_singleton.mpr second⟩

theorem AnswersB.reads_join (x : e.AnswersB relX unitX sx) (balancedX : e.Balanced sx)
    (leavesX : e.LeavesNarrow .B sx) (readsX : e.ReadsShort sx) (y : e.AnswersW relY unitY sy)
    (balancedY : e.Balanced sy) (leavesY : e.LeavesNarrow .W sy) (readsY : e.ReadsShort sy) {opcode : Opcode}
    (two : opcode.operands = 2) : e.ReadsShort (sx ++ sy ++ [.op opcode]) := by
  rw [List.append_assoc]
  exact x.reads_append balancedX leavesX readsX fun _ _ _ _ _ narrow short =>
    y.reads_join balancedY leavesY readsY two narrow short

theorem AnswersB.reads_orC (x : e.AnswersB relX true sx) (balanced : e.Balanced sx) (reads : e.ReadsShort sx)
    (nested : sy.Nested) (reads' : e.ReadsShort sy) : e.ReadsShort (Script.pair .orC sx sy) := by
  rw [pair_orC]
  refine x.reads_append balanced x.leavesNarrow reads fun answer result rest alt _ _ short => ?_
  refine reads_conditional nested fun below shape => ?_
  obtain ⟨_, rfl⟩ := List.cons.inj shape
  exact reads' _ alt short

theorem AnswersB.reads_orD (x : e.AnswersB relX true sx) (balanced : e.Balanced sx) (reads : e.ReadsShort sx)
    (nested : sy.Nested) (reads' : e.ReadsShort sy) : e.ReadsShort (Script.pair .orD sx sy) := by
  rw [pair_orD]
  refine x.reads_append balanced x.leavesNarrow reads fun answer result rest alt denotes narrow short => ?_
  refine reads_op_append rfl rfl fun middle copied => ?_
  obtain rfl := denotes.eq_writeBool
  rw [← exec_op rfl, exec_ifDup] at copied
  cases copied
  refine reads_conditional nested fun below shape => ?_
  obtain ⟨_, rfl⟩ := List.cons.inj shape
  refine reads' _ alt ?_
  split
  · exact short.cons rfl
  · exact short

/-- Both branches find what lies below the argument. -/
theorem ReadsShort.alternative (x : e.ReadsShort sx) (y : e.ReadsShort sy) (balanced : e.Balanced sx)
    (nested : sx.Nested) (nested' : sy.Nested) (wanted : Bool) :
    e.ReadsShort ([opening wanted] ++ sx ++ [.op .else] ++ sy ++ [.op .endIf]) := by
  intro main alt short
  refine reads_alternative balanced nested nested' fun value rest shape => ?_
  have below : ShortSizes rest := (List.forall_mem_cons.mp (shape ▸ short)).2
  split
  · exact x rest alt below
  · exact y rest alt below

theorem AnswersB.reads_andOr (x : e.AnswersB relX true sx) (balanced : e.Balanced sx) (reads : e.ReadsShort sx)
    (chosen : e.ReadsShort ([opening false] ++ sz ++ [.op .else] ++ sy ++ [.op .endIf])) :
    e.ReadsShort (Script.andOr sx sy sz) := by
  rw [andOr_eq]
  exact x.reads_append balanced x.leavesNarrow reads fun _ result rest alt _ narrow short =>
    chosen _ alt (short.cons narrow)

section Sum

variable {α : Type} {rels : α → AnswerRel} {scripts : α → Script}

/-- The sum before each addition is no more than the number of children that ran. -/
private theorem reads_sum {items : List α} (answers : ∀ x ∈ items, e.AnswersW (rels x) true (scripts x))
    (balanced : ∀ x ∈ items, e.Balanced (scripts x)) (leaves : ∀ x ∈ items, e.LeavesNarrow .W (scripts x))
    (reads : ∀ x ∈ items, e.ReadsShort (scripts x)) {next : Script}
    (none : ∀ instruction ∈ next, instruction.operands = 0) {sum : Nat} {main alt : List Bytes}
    (few : sum + items.length ≤ 2 ^ 31) (short : ShortSizes main) :
    e.Reads ((items.flatMap fun x => scripts x ++ [.op .add]) ++ next) ⟨Bytes.writeNumber sum :: main, alt⟩ := by
  induction items generalizing sum main with
  | nil => exact reads_of_none none
  | cons x items ih =>
    obtain ⟨answersX, answersRest⟩ := List.forall_mem_cons.mp answers
    obtain ⟨balancedX, balancedRest⟩ := List.forall_mem_cons.mp balanced
    obtain ⟨leavesX, leavesRest⟩ := List.forall_mem_cons.mp leaves
    obtain ⟨readsX, readsRest⟩ := List.forall_mem_cons.mp reads
    rw [List.length_cons] at few
    rw [List.flatMap_cons, List.append_assoc]
    refine (balancedX.append (e.balanced_op .add rfl)).reads_append ?_ fun middle added => ?_
    · exact answersX.reads_join balancedX leavesX readsX rfl ((Bytes.isNarrow_writeNumber sum).mpr (by omega)) short
    · obtain ⟨answer, taken, rest, rfl, _, _, rfl⟩ := (answersX.exec_add balancedX).mp added
      have := Bool.toNat_le answer
      exact ih answersRest balancedRest leavesRest readsRest (by omega) short.of_append

theorem AnswersB.reads_threshold {k : Nat} {first : α} {items : List α}
    (head : e.AnswersB (rels first) true (scripts first)) (balancedHead : e.Balanced (scripts first))
    (readsHead : e.ReadsShort (scripts first))
    (others : ∀ x ∈ items, e.AnswersW (rels x) true (scripts x))
    (balanced : ∀ x ∈ items, e.Balanced (scripts x)) (leaves : ∀ x ∈ items, e.LeavesNarrow .W (scripts x))
    (reads : ∀ x ∈ items, e.ReadsShort (scripts x)) (few : items.length < 2 ^ 31) :
    e.ReadsShort (Script.threshold k ((first :: items).map scripts)) := by
  rw [threshold_cons]
  refine head.reads_append balancedHead head.leavesNarrow readsHead
    fun answer result rest alt denotes narrow short => ?_
  obtain rfl := denotes.eq_writeBool
  rw [Bytes.writeBool_eq]
  refine reads_sum others balanced leaves reads ?_ ?_ short
  · simp [Opcode.operands]
  · have := Bool.toNat_le answer
    omega

end Sum

/-- The checks of a `multi_a` count without reading numbers of this kind. -/
private theorem operands_checkSigChain {κ : Type} [PublicKey κ] (context : Context) (keys : List κ) :
    ∀ instruction ∈ Script.checkSigChain context keys, instruction.operands = 0 := by
  cases keys with
  | nil => exact List.forall_mem_nil _
  | cons first rest =>
    refine List.forall_mem_append.mpr ⟨by simp [Script.pushKey, Opcode.operands],
      fun instruction member => ?_⟩
    obtain ⟨key, _, among⟩ := List.mem_flatMap.mp member
    obtain rfl | rfl : instruction = Script.pushKey context key ∨ instruction = .op .checkSigAdd := by
      simpa using among
    · rfl
    · rfl

/-- A `multi_a` compares how many signatures it counted with how many it asks for. -/
theorem readsShort_multiA {κ : Type} [PublicKey κ] {context : Context} (schnorr : e.scheme = .schnorr)
    (ks : Threshold κ multiACap) :
    e.ReadsShort (Script.ofLeaf context (.multiA ks : Leaf κ Digest)) := by
  have few : ks.items.length ≤ 125000 := ks.capped 125000 rfl
  have enough := ks.k_le
  have nonempty : ks.items ≠ [] := List.ne_nil_of_length_pos (Nat.lt_of_lt_of_le ks.k_pos enough)
  intro main alt short
  refine (e.balanced_checkSigChain context ks.items).reads_append ?_ fun middle ran => ?_
  · exact reads_of_none (operands_checkSigChain context ks.items)
  · obtain ⟨count, taken, rest, rfl, counted, rfl⟩ := (exec_checkSigChain schnorr nonempty (by omega)).mp ran
    have bounded := (length_of_countSigs? counted).2
    rw [List.length_map] at bounded
    refine (e.balanced_ofNumber ks.k).reads_append ?_ fun middle pushed => ?_
    · exact reads_of_none (by simp)
    · rw [exec_ofNumber] at pushed
      cases pushed
      refine reads_op (List.forall_mem_cons.mpr ⟨?_, List.forall_mem_singleton.mpr ?_⟩) <;>
        exact (Bytes.isNarrow_writeNumber _).mpr (by omega)

/-- No other leaf reads numbers. -/
theorem readsShort_ofLeaf {κ : Type} [PublicKey κ] {context : Context} {l : Leaf κ Digest}
    (schnorr : ∀ ks, l = .multiA ks → e.scheme = .schnorr) : e.ReadsShort (Script.ofLeaf context l) := by
  have ofNone (none : ∀ instruction ∈ Script.ofLeaf context l, instruction.operands = 0) :
      e.ReadsShort (Script.ofLeaf context l) := readsShort_of_none none
  cases l with
  | multiA ks => exact readsShort_multiA (schnorr ks rfl) ks
  | one | zero | key k | keyHash k | after lock | older lock =>
    exact ofNone (by simp [Script.ofLeaf, Script.pushKey, Opcode.operands])
  | digest d =>
    refine ofNone ?_
    cases kind : d.kind <;> simp [Script.ofLeaf, kind, Script.hashOpcode, Opcode.operands]
  | multi ks =>
    have keys : ∀ instruction ∈ ks.items.map (Script.pushKey context), instruction.operands = 0 :=
      List.forall_mem_map.mpr fun _ _ => rfl
    refine ofNone (List.forall_mem_cons.mpr ⟨by simp, List.forall_mem_append.mpr ⟨keys, ?_⟩⟩)
    simp [Opcode.operands]

end Templates

end Evaluator

end LockScript
