import LockScript.Proofs.Parsing
import LockScript.Proofs.StackDepth

/-! # Lenient conditionals

Without the rule for minimal arguments, any element can be the argument of an `IF`, and what counts is
whether it is true. Everything else stays the same. The scripts of conditions close every conditional
that they open, so they can be run part by part here too.
-/

namespace LockScript

namespace Evaluator

variable (e : Evaluator)

/-- Opens a conditional, which runs its first branch if its argument is as true as `wanted`. Where
nothing runs, no argument is taken. -/
def openLeniently? (wanted : Bool) (m : Machine) : Option Machine :=
  if m.branches.all id then
    match m.store.main with
    | [] => none
    | top :: rest => some ⟨⟨rest, m.store.alt⟩, (top.isTrue == wanted) :: m.branches⟩
  else some ⟨m.store, false :: m.branches⟩

/-- Runs one instruction, with any element as the argument of a conditional. -/
def stepLeniently (m : Machine) : Instruction → Option Machine
  | .op .if => openLeniently? true m
  | .op .notIf => openLeniently? false m
  | instruction => e.step m instruction

/-- Runs a script, with any elements as the arguments of its conditionals. -/
def runLeniently (script : Script) (m : Machine) : Option Machine :=
  script.foldlM e.stepLeniently m

/-- Runs a script on its own, which must close the conditionals that it opens. -/
def execLeniently (script : Script) (store : Stacks) : Option Stacks := do
  let m ← e.runLeniently script ⟨store, []⟩
  if m.branches.isEmpty then some m.store else none

/-- Whether a script accepts a witness, of which the last element is on top. -/
def acceptsScriptLeniently (script : Script) (witness : List Bytes) : Bool :=
  match e.execLeniently script ⟨witness.reverse, []⟩ with
  | some ⟨[top], _⟩ => top.isTrue
  | _ => false

/-- Whether a script, given as bytes, accepts a witness. -/
def acceptsLeniently (script : Bytes) (witness : List Bytes) : Bool :=
  match Script.parse? script with
  | some script => e.acceptsScriptLeniently script witness
  | none => false

theorem runLeniently_append (first second : Script) (m : Machine) :
    e.runLeniently (first ++ second) m = (e.runLeniently first m).bind (e.runLeniently second) := by
  simp only [runLeniently, List.foldlM_append]
  rfl

theorem runLeniently_cons (first : Instruction) (rest : Script) (m : Machine) :
    e.runLeniently (first :: rest) m = (e.stepLeniently m first).bind (e.runLeniently rest) := by
  simp only [runLeniently, List.foldlM_cons]
  rfl

theorem runLeniently_opening (wanted : Bool) (rest : Script) (m : Machine) :
    e.runLeniently ([opening wanted] ++ rest) m = (openLeniently? wanted m).bind (e.runLeniently rest) := by
  cases wanted <;> exact e.runLeniently_cons _ rest m

variable {e}

theorem stepLeniently_of_isPlain {instruction : Instruction} (plain : instruction.isPlain = true)
    (m : Machine) : e.stepLeniently m instruction = e.step m instruction := by
  cases instruction with
  | push | small => rfl
  | op opcode => cases opcode <;> first | rfl | cases plain

/-- A script without conditionals runs as it always does. -/
theorem runLeniently_of_isPlain {script : Script} (plain : script.IsPlain) (m : Machine) :
    e.runLeniently script m = e.run script m := by
  induction script generalizing m with
  | nil => rfl
  | cons instruction rest ih =>
    obtain ⟨head, others⟩ := List.forall_mem_cons.mp plain
    rw [runLeniently_cons, run_cons, stepLeniently_of_isPlain head]
    exact congrArg _ (funext (ih others))

theorem execLeniently_of_isPlain {script : Script} (plain : script.IsPlain) (store : Stacks) :
    e.execLeniently script store = e.exec script store := by
  rw [execLeniently, runLeniently_of_isPlain plain, exec]

theorem execLeniently_op {opcode : Opcode} (plain : opcode.isPlain = true) (store : Stacks) :
    e.execLeniently [.op opcode] store = e.execute? opcode store := by
  have single : Script.IsPlain [.op opcode] := List.forall_mem_singleton.mpr plain
  rw [execLeniently_of_isPlain single, exec_op plain]

/-- What a plain instruction does, it does to the stacks, and only where it runs. -/
theorem exists_whereRunning {instruction : Instruction} (plain : instruction.isPlain = true) :
    ∃ f, ∀ m, e.step m instruction = whereRunning f m := by
  cases instruction with
  | push data => exact ⟨_, step_push data⟩
  | small number => exact ⟨_, step_small number⟩
  | op opcode => exact ⟨_, step_op plain⟩

section Frame

variable (store : Stacks) (inner : List Bool) {branches : List Bool} {depth : Nat}

/-- An instruction is skipped where a branch around it is, and only counts the open conditionals. -/
private theorem stepLeniently_skipped (skipped : branches.all id = false) {instruction : Instruction}
    (counted : instruction.nest inner.length = some depth) : ∃ inner', inner'.length = depth ∧
      e.stepLeniently ⟨store, inner ++ branches⟩ instruction = some ⟨store, inner' ++ branches⟩ := by
  have nothing : ¬(inner ++ branches).all id = true := by
    rw [List.all_append, skipped, Bool.and_false]
    exact Bool.false_ne_true
  by_cases plain : instruction.isPlain = true
  · rw [Instruction.nest_of_isPlain plain] at counted
    obtain ⟨f, acts⟩ := exists_whereRunning (e := e) plain
    refine ⟨inner, Option.some.inj counted, ?_⟩
    rw [stepLeniently_of_isPlain plain, acts, whereRunning, if_neg nothing]
  · cases instruction with
    | push | small => exact absurd rfl plain
    | op opcode =>
      cases opcode with
      | «if» | notIf => exact ⟨false :: inner, Option.some.inj counted, if_neg nothing⟩
      | «else» =>
        cases inner with
        | nil => cases counted
        | cons branch inner => exact ⟨(!branch) :: inner, Option.some.inj counted, rfl⟩
      | endIf =>
        cases inner with
        | nil => cases counted
        | cons branch inner => exact ⟨inner, Option.some.inj counted, rfl⟩
      | _ => exact absurd rfl plain

private theorem runLeniently_skipped (skipped : branches.all id = false) {script : Script}
    (counted : script.foldlM Instruction.nest inner.length = some depth) : ∃ inner', inner'.length = depth ∧
      e.runLeniently script ⟨store, inner ++ branches⟩ = some ⟨store, inner' ++ branches⟩ := by
  induction script generalizing inner with
  | nil => exact ⟨inner, Option.some.inj counted, rfl⟩
  | cons instruction rest ih =>
    rw [List.foldlM_cons] at counted
    obtain ⟨middle, first, others⟩ := Option.bind_eq_some_iff.mp counted
    obtain ⟨inner', rfl, ran⟩ := stepLeniently_skipped store _ skipped first
    rw [runLeniently_cons, ran]
    exact ih _ others

/-- An instruction does not look at the conditionals around it if all of them run. -/
private theorem stepLeniently_active (active : branches.all id = true) {instruction : Instruction}
    (counted : instruction.nest inner.length = some depth) :
    e.stepLeniently ⟨store, inner ++ branches⟩ instruction =
        (e.stepLeniently ⟨store, inner⟩ instruction).map (fun n => ⟨n.store, n.branches ++ branches⟩) ∧
      ∀ n, e.stepLeniently ⟨store, inner⟩ instruction = some n → n.branches.length = depth := by
  have same : (inner ++ branches).all id = inner.all id := by
    rw [List.all_append, active, Bool.and_true]
  by_cases plain : instruction.isPlain = true
  · rw [Instruction.nest_of_isPlain plain] at counted
    obtain ⟨f, acts⟩ := exists_whereRunning (e := e) plain
    simp only [stepLeniently_of_isPlain plain, acts, whereRunning, same]
    split
    · refine ⟨by simp [Function.comp_def], fun n ran => ?_⟩
      obtain ⟨out, _, rfl⟩ := Option.map_eq_some_iff.mp ran
      exact Option.some.inj counted
    · refine ⟨rfl, fun n ran => ?_⟩
      cases ran
      exact Option.some.inj counted
  · have opens (wanted : Bool) (deeper : inner.length + 1 = depth) :
        openLeniently? wanted ⟨store, inner ++ branches⟩ =
            (openLeniently? wanted ⟨store, inner⟩).map (fun n => ⟨n.store, n.branches ++ branches⟩) ∧
          ∀ n, openLeniently? wanted ⟨store, inner⟩ = some n → n.branches.length = depth := by
      simp only [openLeniently?, same]
      split
      · cases store.main with
        | nil => exact ⟨rfl, fun n ran => by cases ran⟩
        | cons top rest =>
          refine ⟨rfl, fun n ran => ?_⟩
          cases ran
          exact deeper
      · refine ⟨rfl, fun n ran => ?_⟩
        cases ran
        exact deeper
    cases instruction with
    | push | small => exact absurd rfl plain
    | op opcode =>
      cases opcode with
      | «if» => exact opens true (Option.some.inj counted)
      | notIf => exact opens false (Option.some.inj counted)
      | «else» | endIf =>
        cases inner with
        | nil => cases counted
        | cons branch inner =>
          refine ⟨rfl, fun n ran => ?_⟩
          cases ran
          exact Option.some.inj counted
      | _ => exact absurd rfl plain

private theorem runLeniently_active (active : branches.all id = true) {script : Script}
    (counted : script.foldlM Instruction.nest inner.length = some depth) :
    e.runLeniently script ⟨store, inner ++ branches⟩ =
        (e.runLeniently script ⟨store, inner⟩).map (fun n => ⟨n.store, n.branches ++ branches⟩) ∧
      ∀ n, e.runLeniently script ⟨store, inner⟩ = some n → n.branches.length = depth := by
  induction script generalizing store inner with
  | nil =>
    refine ⟨rfl, fun n ran => ?_⟩
    cases ran
    exact Option.some.inj counted
  | cons instruction rest ih =>
    rw [List.foldlM_cons] at counted
    obtain ⟨middle, first, others⟩ := Option.bind_eq_some_iff.mp counted
    obtain ⟨same, deep⟩ := stepLeniently_active (e := e) store inner active first
    rw [runLeniently_cons, runLeniently_cons, same]
    cases ran : e.stepLeniently ⟨store, inner⟩ instruction with
    | none => exact ⟨rfl, fun n ran => by cases ran⟩
    | some m =>
      obtain rfl := deep m ran
      exact ih _ _ others

end Frame

/-- A script that closes the conditionals that it opens, and no others, is skipped as a whole where a
branch around it is skipped, and elsewhere does what it does on its own. -/
theorem runLeniently_of_nested {script : Script} (nested : script.Nested) (store : Stacks)
    (branches : List Bool) :
    e.runLeniently script ⟨store, branches⟩ =
      if branches.all id then (e.execLeniently script store).map (⟨·, branches⟩)
      else some ⟨store, branches⟩ := by
  split
  next active =>
    obtain ⟨same, deep⟩ := runLeniently_active (e := e) store [] active (nested 0)
    rw [List.nil_append] at same
    rw [same, execLeniently]
    cases ran : e.runLeniently script ⟨store, []⟩ with
    | none => rfl
    | some n =>
      have closed := List.length_eq_zero_iff.mp (deep n ran)
      simp [closed]
  next skipped =>
    obtain ⟨inner, none, ran⟩ := runLeniently_skipped (e := e) store []
      (Bool.eq_false_iff.mpr skipped) (nested 0)
    rw [List.length_eq_zero_iff.mp none] at ran
    exact ran

variable {x y : Script} {main alt : List Bytes} {out : Stacks}

/-- Scripts run one after the other. -/
theorem execLeniently_append (nested : x.Nested) (next : Script) (store : Stacks) :
    e.execLeniently (x ++ next) store = (e.execLeniently x store).bind (e.execLeniently next) := by
  rw [execLeniently, runLeniently_append, runLeniently_of_nested nested]
  simp only [List.all_nil, if_true]
  cases e.execLeniently x store <;> rfl

theorem execLeniently_append_eq_some (nested : x.Nested) {next : Script} {store : Stacks} :
    e.execLeniently (x ++ next) store = some out ↔
      ∃ middle, e.execLeniently x store = some middle ∧ e.execLeniently next middle = some out := by
  rw [execLeniently_append nested, Option.bind_eq_some_iff]

/-- The end of a branch, which ran or was skipped. -/
private theorem runLeniently_endIf (nested : x.Nested) (store : Stacks) (branch : Bool) :
    e.runLeniently (x ++ [.op .endIf]) ⟨store, [branch]⟩ =
      if branch then (e.execLeniently x store).map (⟨·, []⟩) else some ⟨store, []⟩ := by
  rw [runLeniently_append, runLeniently_of_nested nested]
  cases branch with
  | false => rfl
  | true =>
    simp only [List.all_cons, List.all_nil, id, Bool.and_true, if_true]
    cases e.execLeniently x store <;> rfl

/-- The turn from one branch to the other. -/
private theorem runLeniently_else (nested : x.Nested) (rest : Script) (store : Stacks) (branch : Bool) :
    e.runLeniently (x ++ ([.op .else] ++ rest)) ⟨store, [branch]⟩ =
      if branch then (e.execLeniently x store).bind fun middle => e.runLeniently rest ⟨middle, [false]⟩
      else e.runLeniently rest ⟨store, [true]⟩ := by
  rw [runLeniently_append, runLeniently_of_nested nested]
  cases branch with
  | false => rfl
  | true =>
    simp only [List.all_cons, List.all_nil, id, Bool.and_true, if_true]
    cases e.execLeniently x store <;> rfl

/-- How a conditional with one branch can go on. -/
theorem execLeniently_conditional (nested : x.Nested) (wanted : Bool) :
    e.execLeniently ([opening wanted] ++ x ++ [.op .endIf]) ⟨main, alt⟩ = some out ↔
      ∃ top rest, main = top :: rest ∧
        (if top.isTrue = wanted then e.execLeniently x ⟨rest, alt⟩ else some ⟨rest, alt⟩) = some out := by
  rw [execLeniently, List.append_assoc, runLeniently_opening]
  cases main with
  | nil => simp [openLeniently?]
  | cons top rest =>
    simp only [openLeniently?, List.all_nil, if_true, Option.bind_some, runLeniently_endIf nested,
      beq_iff_eq]
    split
    next taken => cases ran : e.execLeniently x ⟨rest, alt⟩ <;> simp [taken, ran]
    next skipped => simp [skipped]

/-- How a conditional with two branches, and what comes after it, can go on. -/
theorem execLeniently_alternative (nested : x.Nested) (nested' : y.Nested) (wanted : Bool) (next : Script) :
    e.execLeniently ([opening wanted] ++ x ++ [.op .else] ++ y ++ [.op .endIf] ++ next) ⟨main, alt⟩ =
        some out ↔
      ∃ top rest, main = top :: rest ∧
        e.execLeniently ((if top.isTrue = wanted then x else y) ++ next) ⟨rest, alt⟩ = some out := by
  rw [execLeniently_append (nested.alternative nested' wanted), execLeniently, List.append_assoc,
    List.append_assoc, List.append_assoc, runLeniently_opening]
  cases main with
  | nil => simp [openLeniently?]
  | cons top rest =>
    simp only [openLeniently?, List.all_nil, if_true, Option.bind_some, runLeniently_else nested,
      runLeniently_endIf nested', beq_iff_eq]
    by_cases first : top.isTrue = wanted
    · simp only [first, if_true, Bool.false_eq_true, if_false]
      cases ran : e.execLeniently x ⟨rest, alt⟩ <;> simp [first, ran, execLeniently_append nested]
    · simp only [first, if_false]
      cases ran : e.execLeniently y ⟨rest, alt⟩ <;> simp [first, ran, execLeniently_append nested']

/-- Folding `v:` into the last opcode is the same as a `VERIFY` after it. -/
theorem execLeniently_verified (nested : x.Nested) (store : Stacks) :
    e.execLeniently x.verified store = (e.execLeniently x store).bind (e.execute? .verify) := by
  have plainly : e.execLeniently (x ++ [.op .verify]) store =
      (e.execLeniently x store).bind (e.execute? .verify) := by
    rw [execLeniently_append nested]
    exact congrArg _ (funext (execLeniently_op rfl))
  rw [← plainly]
  unfold Script.verified
  split
  next opcode last =>
    split
    next verifying pair =>
      obtain ⟨front, rfl⟩ := List.getLast?_eq_some_iff.mp last
      have plain : opcode.isPlain = true ∧ verifying.isPlain = true := by
        cases opcode <;> cases pair <;> exact ⟨rfl, rfl⟩
      have folded (m : Machine) :
          e.runLeniently [.op verifying] m = e.runLeniently [.op opcode, .op .verify] m := by
        have alone : Script.verified [.op opcode] = [.op verifying] := by
          simp [Script.verified, pair]
        rw [runLeniently_of_isPlain (by simp [plain.2]),
          runLeniently_of_isPlain (by simpa using ⟨plain.1, rfl⟩), ← alone, run_verified]
        rfl
      rw [List.dropLast_concat, List.append_assoc, execLeniently, runLeniently_append, funext folded,
        ← runLeniently_append, execLeniently]
      rfl
    next => rfl
  next => rfl

end Evaluator

end LockScript
