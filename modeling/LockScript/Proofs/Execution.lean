import LockScript.Proofs.Interpreter

/-! # Execution of structured scripts

The interpreter knows nothing of the structure of a script: it follows the conditionals as they come.
Scripts of conditions close every conditional that they open, so they can be run part by part. Such a
script is skipped as a whole where nothing runs, and a conditional runs one of its branches.
-/

namespace LockScript

/-- Whether an opcode is no part of a conditional. -/
def Opcode.isPlain : Opcode → Bool
  | .if | .notIf | .else | .endIf => false
  | _ => true

namespace Evaluator

variable (e : Evaluator)

theorem run_append (first second : Script) (m : Machine) :
    e.run (first ++ second) m = (e.run first m).bind (e.run second) := by
  simp only [run, List.foldlM_append]
  rfl

theorem run_singleton (instruction : Instruction) (m : Machine) :
    e.run [instruction] m = e.step m instruction := by
  simp [run]

theorem run_cons (first : Instruction) (rest : Script) (m : Machine) :
    e.run (first :: rest) m = (e.step m first).bind (e.run rest) := by
  simp only [run, List.foldlM_cons]
  rfl

/-- A script that leaves open conditionals as they are: where all of them run it does what it does on
its own, and elsewhere it does nothing. -/
def Balanced (script : Script) : Prop :=
  ∀ store branches, e.run script ⟨store, branches⟩ =
    if branches.all id then (e.exec script store).map (⟨·, branches⟩) else some ⟨store, branches⟩

theorem balanced_nil : e.Balanced [] := by
  intro store branches
  simp [run, exec, pure]

/-- A script that does one thing to the stacks wherever it runs. -/
theorem balanced_of_run {script : Script} {f : Stacks → Option Stacks}
    (runs : ∀ store branches, e.run script ⟨store, branches⟩ =
      whereRunning f ⟨store, branches⟩) :
    e.Balanced script ∧ ∀ store, e.exec script store = f store := by
  have alone (store : Stacks) : e.exec script store = f store := by
    rw [exec, runs]
    simp only [whereRunning, List.all_nil, if_true]
    cases f store <;> rfl
  refine ⟨fun store branches => ?_, alone⟩
  rw [runs, alone]
  rfl

/-- An instruction that does not look at the open conditionals. -/
theorem balanced_of_step {instruction : Instruction} {f : Stacks → Option Stacks}
    (plain : ∀ m : Machine, e.step m instruction = whereRunning f m) :
    e.Balanced [instruction] ∧ ∀ store, e.exec [instruction] store = f store :=
  e.balanced_of_run fun _ _ => (e.run_singleton _ _).trans (plain _)

variable {e}

theorem Balanced.run_append {first second : Script} (balanced : e.Balanced first)
    (store : Stacks) (branches : List Bool) :
    e.run (first ++ second) ⟨store, branches⟩ =
      if branches.all id then
        (e.exec first store).bind fun middle => e.run second ⟨middle, branches⟩
      else e.run second ⟨store, branches⟩ := by
  rw [Evaluator.run_append, balanced store branches]
  split
  · rw [Option.bind_map]
    rfl
  · rfl

/-- Scripts run one after the other. -/
theorem Balanced.exec_append {first second : Script} (balanced : e.Balanced first)
    (store : Stacks) :
    e.exec (first ++ second) store = (e.exec first store).bind (e.exec second) := by
  rw [exec, balanced.run_append store []]
  simp only [List.all_nil, if_true]
  cases e.exec first store <;> rfl

theorem Balanced.exec_append_eq_some {first second : Script} (balanced : e.Balanced first)
    {store out : Stacks} : e.exec (first ++ second) store = some out ↔
      ∃ middle, e.exec first store = some middle ∧ e.exec second middle = some out := by
  rw [balanced.exec_append, Option.bind_eq_some_iff]

theorem Balanced.append {first second : Script} (balanced : e.Balanced first)
    (balanced' : e.Balanced second) : e.Balanced (first ++ second) := by
  intro store branches
  rw [balanced.run_append store branches, balanced.exec_append store]
  split
  next active =>
    cases e.exec first store with
    | none => rfl
    | some middle =>
      rw [Option.bind_some, Option.bind_some, balanced' middle branches, if_pos active]
  next skipped => rw [balanced' store branches, if_neg skipped]

/-- The opcode that runs its first branch if its argument is `wanted`. -/
def opening (wanted : Bool) : Instruction :=
  if wanted then .op .if else .op .notIf

theorem step_opening (wanted : Bool) (m : Machine) :
    e.step m (opening wanted) = openBranch? wanted m := by
  cases wanted <;> rfl

theorem run_opening (wanted : Bool) (rest : Script) (m : Machine) :
    e.run ([opening wanted] ++ rest) m = (openBranch? wanted m).bind (e.run rest) := by
  rw [Evaluator.run_append, run_singleton, step_opening]

/-- The end of a branch, which ran or was skipped. -/
theorem Balanced.run_endIf {x : Script} (balanced : e.Balanced x) (store : Stacks) (branch : Bool)
    (branches : List Bool) :
    e.run (x ++ [.op .endIf]) ⟨store, branch :: branches⟩ =
      if branch && branches.all id then (e.exec x store).map (⟨·, branches⟩)
      else some ⟨store, branches⟩ := by
  rw [balanced.run_append, List.all_cons, id]
  split
  · cases e.exec x store <;> rfl
  · rfl

/-- The turn from one branch to the other. -/
theorem Balanced.run_else {x : Script} (balanced : e.Balanced x) (rest : Script) (store : Stacks)
    (branch : Bool) (branches : List Bool) :
    e.run (x ++ ([.op .else] ++ rest)) ⟨store, branch :: branches⟩ =
      if branch && branches.all id then
        (e.exec x store).bind fun middle => e.run rest ⟨middle, (!branch) :: branches⟩
      else e.run rest ⟨store, (!branch) :: branches⟩ := by
  rw [balanced.run_append, List.all_cons, id]
  rfl

/-- A conditional with one branch runs it or skips it. -/
theorem Balanced.conditional {x : Script} (balanced : e.Balanced x) (wanted : Bool) :
    e.Balanced ([opening wanted] ++ x ++ [.op .endIf]) ∧
      ∀ store, e.exec ([opening wanted] ++ x ++ [.op .endIf]) store =
        (condition? store.main).bind fun (value, rest) =>
          if value = wanted then e.exec x ⟨rest, store.alt⟩ else some ⟨rest, store.alt⟩ := by
  refine e.balanced_of_run fun store branches => ?_
  rw [List.append_assoc, run_opening, openBranch?, whereRunning]
  by_cases active : branches.all id = true
  · rw [if_pos active, if_pos active]
    cases condition? store.main with
    | none => rfl
    | some outcome =>
      obtain ⟨value, rest⟩ := outcome
      simp only [Option.map_some, Option.bind_some, balanced.run_endIf, active, Bool.and_true,
        beq_iff_eq]
      split <;> rfl
  · rw [if_neg active, if_neg active, Option.bind_some, balanced.run_endIf]
    rfl

/-- A conditional with two branches runs one of them. -/
theorem Balanced.alternative {x y : Script} (balanced : e.Balanced x) (balanced' : e.Balanced y)
    (wanted : Bool) :
    e.Balanced ([opening wanted] ++ x ++ [.op .else] ++ y ++ [.op .endIf]) ∧
      ∀ store, e.exec ([opening wanted] ++ x ++ [.op .else] ++ y ++ [.op .endIf]) store =
        (condition? store.main).bind fun (value, rest) =>
          e.exec (if value = wanted then x else y) ⟨rest, store.alt⟩ := by
  refine e.balanced_of_run fun store branches => ?_
  rw [List.append_assoc, List.append_assoc, List.append_assoc, run_opening, openBranch?,
    whereRunning]
  by_cases active : branches.all id = true
  · rw [if_pos active, if_pos active]
    cases condition? store.main with
    | none => rfl
    | some outcome =>
      obtain ⟨value, rest⟩ := outcome
      simp only [Option.map_some, Option.bind_some, balanced.run_else, balanced'.run_endIf, active,
        Bool.and_true, beq_iff_eq]
      by_cases first : value = wanted
      · simp only [first, if_true, Bool.not_true, Bool.false_eq_true, if_false, beq_self_eq_true]
        cases e.exec x ⟨rest, store.alt⟩ <;> rfl
      · simp [first]
  · rw [if_neg active, if_neg active, Option.bind_some, balanced.run_else, balanced'.run_endIf]
    simp [active]

theorem condition?_eq_some {main rest : List Bytes} {value : Bool} :
    condition? main = some (value, rest) ↔ main = Bytes.writeBool value :: rest := by
  cases main with
  | nil => simp [condition?]
  | cons a others =>
    by_cases empty : a = []
    · cases value <;> simp [condition?, empty, Bytes.writeBool]
    · by_cases one : a = [1] <;> cases value <;> simp [condition?, empty, one, Bytes.writeBool]

/-- How a conditional with one branch can go on. -/
theorem Balanced.exec_conditional {x : Script} (balanced : e.Balanced x) (wanted : Bool)
    {main alt : List Bytes} {out : Stacks} :
    e.exec ([opening wanted] ++ x ++ [.op .endIf]) ⟨main, alt⟩ = some out ↔
      ∃ value rest, main = Bytes.writeBool value :: rest ∧
        (if value = wanted then e.exec x ⟨rest, alt⟩ else some ⟨rest, alt⟩) = some out := by
  rw [(balanced.conditional wanted).2, Option.bind_eq_some_iff, Prod.exists]
  simp only [condition?_eq_some]

/-- How a conditional with two branches, and what comes after it, can go on. -/
theorem Balanced.exec_alternative {x y : Script} (balanced : e.Balanced x)
    (balanced' : e.Balanced y) (wanted : Bool) (next : Script) {main alt : List Bytes}
    {out : Stacks} :
    e.exec ([opening wanted] ++ x ++ [.op .else] ++ y ++ [.op .endIf] ++ next) ⟨main, alt⟩ =
        some out ↔
      ∃ value rest, main = Bytes.writeBool value :: rest ∧
        e.exec ((if value = wanted then x else y) ++ next) ⟨rest, alt⟩ = some out := by
  obtain ⟨whole, runs⟩ := balanced.alternative balanced' wanted
  rw [whole.exec_append, runs, Option.bind_assoc, Option.bind_eq_some_iff, Prod.exists]
  simp only [condition?_eq_some]
  refine exists_congr fun value => exists_congr fun rest => and_congr_right fun _ => ?_
  have branch : e.Balanced (if value = wanted then x else y) := by
    split
    · exact balanced
    · exact balanced'
  rw [branch.exec_append]

theorem step_op {opcode : Opcode} (plain : opcode.isPlain = true) (m : Machine) :
    e.step m (.op opcode) = whereRunning (e.execute? opcode) m := by
  cases opcode <;> first | rfl | cases plain

variable (e) in
theorem balanced_op (opcode : Opcode) (plain : opcode.isPlain = true) : e.Balanced [.op opcode] :=
  (e.balanced_of_step (step_op plain)).1

theorem exec_op {opcode : Opcode} (plain : opcode.isPlain = true) (store : Stacks) :
    e.exec [.op opcode] store = e.execute? opcode store :=
  (e.balanced_of_step (step_op plain)).2 store

theorem step_push (data : Bytes) (m : Machine) :
    e.step m (.push data) =
      whereRunning (fun store => some ⟨data :: store.main, store.alt⟩) m :=
  rfl

variable (e) in
theorem balanced_push (data : Bytes) : e.Balanced [.push data] :=
  (e.balanced_of_step (step_push data)).1

theorem exec_push (data : Bytes) (store : Stacks) :
    e.exec [.push data] store = some ⟨data :: store.main, store.alt⟩ :=
  (e.balanced_of_step (step_push data)).2 store

/-- However a number is pushed, its shortest encoding ends up on the stack. -/
theorem step_ofNumber (number : Nat) (m : Machine) :
    e.step m (.ofNumber number) =
      whereRunning (fun store => some ⟨Bytes.writeNumber number :: store.main, store.alt⟩) m := by
  unfold Instruction.ofNumber
  split
  next => rfl
  next large =>
    rw [Bytes.writeNumber_of_pos (by omega)]
    rfl

variable (e) in
theorem balanced_ofNumber (number : Nat) : e.Balanced [.ofNumber number] :=
  (e.balanced_of_step (step_ofNumber number)).1

theorem exec_ofNumber (number : Nat) (store : Stacks) :
    e.exec [.ofNumber number] store =
      some ⟨Bytes.writeNumber number :: store.main, store.alt⟩ :=
  (e.balanced_of_step (step_ofNumber number)).2 store

theorem whereRunning_bind (f g : Stacks → Option Stacks) (m : Machine) :
    whereRunning (fun store => (f store).bind g) m =
      (whereRunning f m).bind (whereRunning g) := by
  obtain ⟨store, branches⟩ := m
  simp only [whereRunning]
  by_cases active : branches.all id = true
  · rw [if_pos active, if_pos active]
    cases f store with
    | none => rfl
    | some middle => exact (if_pos active).symm
  · rw [if_neg active, if_neg active]
    exact (if_neg active).symm

private theorem passing?_eq_verify (outcome : Option (Bool × List Bytes)) (alt : List Bytes) :
    (outcome.bind passing?).map (Stacks.mk · alt) =
      ((outcome.map pushing).map (Stacks.mk · alt)).bind (e.execute? .verify) := by
  rcases outcome with _ | ⟨_ | _, rest⟩ <;> rfl

/-- A verifying opcode does what the plain one does and then a `VERIFY`. -/
theorem execute?_verifying {opcode verifying : Opcode} (pair : opcode.verifying? = some verifying)
    (store : Stacks) :
    e.execute? verifying store = (e.execute? opcode store).bind (e.execute? .verify) := by
  cases opcode <;> cases pair <;> exact passing?_eq_verify _ _

/-- Folding `v:` into the last opcode is the same as a `VERIFY` after it. -/
theorem run_verified (script : Script) (m : Machine) :
    e.run script.verified m = e.run (script ++ [.op .verify]) m := by
  unfold Script.verified
  split
  next opcode last =>
    split
    next verifying pair =>
      obtain ⟨front, rfl⟩ := List.getLast?_eq_some_iff.mp last
      have plain : opcode.isPlain = true ∧ verifying.isPlain = true := by
        cases opcode <;> cases pair <;> exact ⟨rfl, rfl⟩
      rw [List.dropLast_concat, List.append_assoc, Evaluator.run_append, Evaluator.run_append]
      refine congrArg _ (funext fun middle => ?_)
      rw [run_singleton, Evaluator.run_append, run_singleton, step_op plain.1, step_op plain.2,
        funext (execute?_verifying pair), whereRunning_bind]
      exact congrArg _ (funext fun later => (run_singleton e (.op .verify) later).symm)
    next => rfl
  next => rfl

theorem Balanced.of_verified {script : Script} (balanced : e.Balanced script) :
    e.Balanced script.verified ∧ ∀ store, e.exec script.verified store =
      (e.exec script store).bind (e.execute? .verify) := by
  have whole := balanced.append (e.balanced_op .verify rfl)
  have same (store : Stacks) : e.exec script.verified store = e.exec (script ++ [.op .verify]) store := by
    rw [exec, run_verified, ← exec]
  refine ⟨fun store branches => ?_, fun store => ?_⟩
  · rw [run_verified, whole, same]
  · rw [same, balanced.exec_append]
    exact congrArg _ (funext fun middle => exec_op rfl middle)

end Evaluator

end LockScript
