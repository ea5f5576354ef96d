import LockScript.Proofs.Composition

/-! # Stack depth

How many elements are on both stacks at any point of a run. An opcode takes so many elements and leaves
so many, which bounds how far the stacks rise over a script without conditionals. A conditional runs one
of its branches, and while a branch is skipped the stacks stay as they are.
-/

namespace LockScript

/-- The number of elements on both stacks. -/
def Stacks.size (store : Stacks) : Nat :=
  store.main.length + store.alt.length

namespace Opcode

/-- How many elements an opcode takes, at least. -/
def pops : Opcode → Nat
  | .swap | .equal | .equalVerify | .numEqual | .numEqualVerify | .checkSig | .checkSigVerify | .add
  | .boolAnd | .boolOr => 2
  | .checkMultiSig | .checkMultiSigVerify | .checkSigAdd => 3
  | _ => 1

/-- How many elements an opcode leaves in their place, at most. -/
def pushes : Opcode → Nat
  | .dup | .ifDup | .size | .swap => 2
  | .verify | .equalVerify | .numEqualVerify | .checkSigVerify | .checkMultiSigVerify => 0
  | _ => 1

end Opcode

namespace Instruction

/-- Whether an instruction is no part of a conditional. -/
def isPlain : Instruction → Bool
  | .op opcode => opcode.isPlain
  | .push _ | .small _ => true

/-- How many elements an instruction takes, at least. -/
def pops : Instruction → Nat
  | .op opcode => opcode.pops
  | .push _ | .small _ => 0

/-- How many elements an instruction leaves in their place, at most. -/
def pushes : Instruction → Nat
  | .op opcode => opcode.pushes
  | .push _ | .small _ => 1

/-- How many conditionals are open after an instruction, if it closes none that was not open. -/
def nest (depth : Nat) : Instruction → Option Nat
  | .op .if | .op .notIf => some (depth + 1)
  | .op .else => if depth = 0 then none else some depth
  | .op .endIf => if depth = 0 then none else some (depth - 1)
  | _ => some depth

theorem nest_of_isPlain {instruction : Instruction} (plain : instruction.isPlain = true) (depth : Nat) :
    instruction.nest depth = some depth := by
  cases instruction with
  | push | small => rfl
  | op opcode => cases opcode <;> first | rfl | cases plain

end Instruction

namespace Script

/-- How far the stacks rise at most while a script without conditionals runs. -/
def rise : Script → Nat
  | [] => 0
  | first :: rest => first.pushes + rise rest - first.pops

/-- Whether a script has no conditionals. -/
def IsPlain (script : Script) : Prop :=
  ∀ instruction ∈ script, instruction.isPlain = true

/-- Whether a script closes the conditionals that it opens, and no others. -/
def Nested (script : Script) : Prop :=
  ∀ depth, script.foldlM Instruction.nest depth = some depth

variable {first second x y : Script}

@[simp] theorem isPlain_nil : IsPlain [] :=
  List.forall_mem_nil _

@[simp] theorem isPlain_cons {instruction : Instruction} {rest : Script} :
    IsPlain (instruction :: rest) ↔ instruction.isPlain = true ∧ IsPlain rest :=
  List.forall_mem_cons

@[simp] theorem isPlain_append : IsPlain (first ++ second) ↔ IsPlain first ∧ IsPlain second :=
  List.forall_mem_append

theorem IsPlain.nested (plain : x.IsPlain) : x.Nested := by
  intro depth
  induction x with
  | nil => rfl
  | cons instruction rest ih =>
    obtain ⟨head, others⟩ := List.forall_mem_cons.mp plain
    rw [List.foldlM_cons, Instruction.nest_of_isPlain head]
    exact ih others

theorem Nested.append (nested : first.Nested) (nested' : second.Nested) : (first ++ second).Nested := by
  intro depth
  rw [List.foldlM_append, nested depth]
  exact nested' depth

theorem nested_op (opcode : Opcode) (plain : opcode.isPlain = true) : Nested [.op opcode] :=
  IsPlain.nested (List.forall_mem_singleton.mpr plain)

theorem nested_flatMap {α : Type} {f : α → Script} {items : List α} (nested : ∀ x ∈ items, (f x).Nested) :
    Nested (items.flatMap f) := by
  induction items with
  | nil => exact fun _ => rfl
  | cons x rest ih =>
    obtain ⟨head, others⟩ := List.forall_mem_cons.mp nested
    exact head.append (ih others)

theorem Nested.conditional (nested : x.Nested) (wanted : Bool) :
    Nested ([Evaluator.opening wanted] ++ x ++ [.op .endIf]) := by
  intro depth
  have opened : (Evaluator.opening wanted).nest depth = some (depth + 1) := by cases wanted <;> rfl
  rw [List.append_assoc, List.singleton_append, List.foldlM_cons, opened]
  change List.foldlM Instruction.nest (depth + 1) (x ++ [.op .endIf]) = _
  rw [List.foldlM_append, nested]
  rfl

theorem Nested.alternative (nested : x.Nested) (nested' : y.Nested) (wanted : Bool) :
    Nested ([Evaluator.opening wanted] ++ x ++ [.op .else] ++ y ++ [.op .endIf]) := by
  intro depth
  have opened : (Evaluator.opening wanted).nest depth = some (depth + 1) := by cases wanted <;> rfl
  rw [List.append_assoc, List.append_assoc, List.append_assoc, List.singleton_append, List.foldlM_cons,
    opened]
  change List.foldlM Instruction.nest (depth + 1) (x ++ _) = _
  rw [List.foldlM_append, nested]
  change List.foldlM Instruction.nest (depth + 1) (y ++ [.op .endIf]) = _
  rw [List.foldlM_append, nested']
  rfl

/-- The scripts in which every conditional has an end of its own, and one `ELSE` or none. -/
inductive Bracketed : Script → Prop where
  | nil : Bracketed []
  | plain {instruction : Instruction} (plain : instruction.isPlain = true) : Bracketed [instruction]
  | append {first second : Script} (start : Bracketed first) (rest : Bracketed second) :
    Bracketed (first ++ second)
  | conditional {x : Script} (wanted : Bool) (body : Bracketed x) :
    Bracketed ([Evaluator.opening wanted] ++ x ++ [.op .endIf])
  | alternative {x y : Script} (wanted : Bool) (body : Bracketed x) (other : Bracketed y) :
    Bracketed ([Evaluator.opening wanted] ++ x ++ [.op .else] ++ y ++ [.op .endIf])

theorem Bracketed.nested (bracketed : x.Bracketed) : x.Nested := by
  induction bracketed with
  | nil => exact fun _ => rfl
  | plain plain => exact IsPlain.nested (List.forall_mem_singleton.mpr plain)
  | append _ _ nested nested' => exact nested.append nested'
  | conditional wanted _ nested => exact nested.conditional wanted
  | alternative wanted _ _ nested nested' => exact nested.alternative nested' wanted

theorem bracketed_op (opcode : Opcode) (plain : opcode.isPlain = true) : Bracketed [.op opcode] :=
  .plain plain

theorem IsPlain.bracketed (plain : x.IsPlain) : x.Bracketed := by
  induction x with
  | nil => exact .nil
  | cons instruction rest ih =>
    obtain ⟨head, others⟩ := List.forall_mem_cons.mp plain
    exact .append (.plain head) (ih others)

theorem Bracketed.flatMap {α : Type} {f : α → Script} {items : List α}
    (bracketed : ∀ x ∈ items, (f x).Bracketed) : Bracketed (items.flatMap f) := by
  induction items with
  | nil => exact .nil
  | cons x rest ih =>
    obtain ⟨head, others⟩ := List.forall_mem_cons.mp bracketed
    exact .append head (ih others)

/-- What stands before a last instruction that is no part of a conditional is bracketed too. -/
theorem Bracketed.of_append_plain {instruction : Instruction} (plain : instruction.isPlain = true)
    (bracketed : Bracketed (x ++ [instruction])) : x.Bracketed := by
  generalize whole : x ++ [instruction] = script at bracketed
  -- A conditional ends in an `ENDIF`, so only the last part of a sequence is to be looked into.
  induction bracketed generalizing x with
  | nil => cases (List.append_ne_nil_of_right_ne_nil x (List.cons_ne_nil _ _)) whole
  | plain _ =>
    cases x with
    | nil => exact .nil
    | cons first rest => simp at whole
  | @append first second start rest ih ih' =>
    rcases List.eq_nil_or_concat' second with rfl | ⟨front, last, rfl⟩
    · exact ih (whole.trans (List.append_nil first))
    · obtain ⟨rfl, same⟩ := List.append_inj' (whole.trans (List.append_assoc ..).symm) rfl
      exact .append start (ih' (by rw [same]))
  | conditional | alternative =>
    obtain ⟨-, last⟩ := List.append_inj' whole rfl
    cases last
    cases plain

theorem Bracketed.verified (bracketed : x.Bracketed) : x.verified.Bracketed := by
  unfold Script.verified
  split
  next opcode last =>
    split
    next verifying pair =>
      obtain ⟨front, rfl⟩ := List.getLast?_eq_some_iff.mp last
      have plain : (Instruction.op opcode).isPlain = true ∧ verifying.isPlain = true := by
        cases opcode <;> cases pair <;> exact ⟨rfl, rfl⟩
      rw [List.dropLast_concat]
      exact .append (bracketed.of_append_plain plain.1) (bracketed_op verifying plain.2)
    next => exact .append bracketed (bracketed_op .verify rfl)
  next => exact .append bracketed (bracketed_op .verify rfl)

end Script

namespace Evaluator

variable {e : Evaluator}

section Effect

variable {main out rest : List Bytes} {count : Nat}

private theorem length_unary {f : Bytes → Option (List Bytes)} (few : ∀ a l, f a = some l → l.length ≤ count)
    (ran : unary f main = some out) : out.length + 1 ≤ main.length + count := by
  cases main with
  | nil => cases ran
  | cons a rest =>
    obtain ⟨l, result, rfl⟩ := Option.map_eq_some_iff.mp ran
    have := few a l result
    simp only [List.length_append, List.length_cons]
    omega

private theorem length_binary {f : Bytes → Bytes → Option (List Bytes)}
    (few : ∀ a b l, f a b = some l → l.length ≤ count) (ran : binary f main = some out) :
    out.length + 2 ≤ main.length + count := by
  obtain _ | ⟨a, _ | ⟨b, rest⟩⟩ := main
  · cases ran
  · cases ran
  · obtain ⟨l, result, rfl⟩ := Option.map_eq_some_iff.mp ran
    have := few a b l result
    simp only [List.length_append, List.length_cons]
    omega

private theorem length_ternary {f : Bytes → Bytes → Bytes → Option (List Bytes)}
    (few : ∀ a b c l, f a b c = some l → l.length ≤ count) (ran : ternary f main = some out) :
    out.length + 3 ≤ main.length + count := by
  obtain _ | ⟨a, _ | ⟨b, _ | ⟨c, rest⟩⟩⟩ := main
  · cases ran
  · cases ran
  · cases ran
  · obtain ⟨l, result, rfl⟩ := Option.map_eq_some_iff.mp ran
    have := few a b c l result
    simp only [List.length_append, List.length_cons]
    omega

private theorem length_takeCounted? {taken : List Bytes} (ran : takeCounted? main = some (taken, rest)) :
    rest.length + 1 ≤ main.length := by
  cases main with
  | nil => cases ran
  | cons count others =>
    obtain ⟨n, _, ran⟩ := Option.bind_eq_some_iff.mp ran
    obtain ⟨_, split⟩ := Option.ite_none_right_eq_some.mp ran
    rw [List.splitAt_eq] at split
    cases split
    rw [List.length_drop, List.length_cons]
    omega

private theorem length_multiVerdict? {passed : Bool} (ran : e.multiVerdict? main = some (passed, rest)) :
    rest.length + 3 ≤ main.length := by
  obtain ⟨⟨keys, lower⟩, taken, ran⟩ := Option.bind_eq_some_iff.mp ran
  obtain ⟨⟨signatures, lowest⟩, taken', ran⟩ := Option.bind_eq_some_iff.mp ran
  have := length_takeCounted? taken
  have := length_takeCounted? taken'
  simp only at ran
  split at ran
  next others =>
    obtain ⟨passed, _, same⟩ := Option.bind_eq_some_iff.mp ran
    cases same
    rw [List.length_cons] at this
    omega
  next => cases ran

/-- A test takes its arguments off the stack. -/
theorem length_test? {opcode : Opcode} {passed : Bool} (ran : e.test? opcode main = some (passed, rest)) :
    rest.length + opcode.pops ≤ main.length := by
  unfold test? at ran
  split at ran
  · cases ran
    exact Nat.le_refl _
  · obtain ⟨m, _, ran⟩ := Option.bind_eq_some_iff.mp ran
    obtain ⟨n, _, ran⟩ := Option.bind_eq_some_iff.mp ran
    cases ran
    exact Nat.le_refl _
  · obtain ⟨verdict, _, same⟩ := Option.map_eq_some_iff.mp ran
    cases same
    exact Nat.le_refl _
  · obtain ⟨_, ran⟩ := Option.ite_none_right_eq_some.mp ran
    exact length_multiVerdict? ran
  · cases ran

private theorem length_passing? (opcode : Opcode) (ran : (e.test? opcode main).bind passing? = some out) :
    out.length + opcode.pops ≤ main.length := by
  obtain ⟨⟨passed, rest⟩, tested, ran⟩ := Option.bind_eq_some_iff.mp ran
  obtain ⟨_, same⟩ := Option.ite_none_right_eq_some.mp ran
  cases same
  exact length_test? tested

private theorem length_pushing (opcode : Opcode) (ran : (e.test? opcode main).map pushing = some out) :
    out.length + opcode.pops ≤ main.length + 1 := by
  obtain ⟨⟨passed, rest⟩, tested, rfl⟩ := Option.map_eq_some_iff.mp ran
  exact Nat.le_trans (Nat.le_of_eq (Nat.succ_add ..)) (Nat.succ_le_succ (length_test? tested))

theorem length_onMain? {opcode : Opcode} (ran : e.onMain? opcode main = some out) :
    out.length + opcode.pops ≤ main.length + opcode.pushes := by
  cases opcode with
  | dup | size | sha256 | hash256 | ripemd160 | hash160 =>
    refine length_unary (fun a l result => ?_) ran
    cases result
    exact Nat.le_refl _
  | ifDup =>
    refine length_unary (fun a l result => ?_) ran
    cases result
    split <;> simp [Opcode.pushes]
  | verify =>
    refine length_unary (fun a l result => ?_) ran
    obtain ⟨_, same⟩ := Option.ite_none_right_eq_some.mp result
    cases same
    exact Nat.le_refl _
  | checkLockTimeVerify | checkSequenceVerify =>
    refine length_unary (fun a l result => ?_) ran
    obtain ⟨n, _, result⟩ := Option.bind_eq_some_iff.mp result
    obtain ⟨_, same⟩ := Option.ite_none_right_eq_some.mp result
    cases same
    exact Nat.le_refl _
  | zeroNotEqual =>
    refine length_unary (fun a l result => ?_) ran
    obtain ⟨n, _, same⟩ := Option.bind_eq_some_iff.mp result
    cases same
    exact Nat.le_refl _
  | swap =>
    refine length_binary (fun a b l result => ?_) ran
    cases result
    exact Nat.le_refl _
  | add | boolAnd | boolOr =>
    refine length_binary (fun a b l result => ?_) ran
    obtain ⟨m, _, result⟩ := Option.bind_eq_some_iff.mp result
    obtain ⟨n, _, same⟩ := Option.bind_eq_some_iff.mp result
    cases same
    exact Nat.le_refl _
  | checkSigAdd =>
    refine length_ternary (fun a b c l result => ?_) ran
    obtain ⟨_, result⟩ := Option.ite_none_right_eq_some.mp result
    obtain ⟨passed, _, result⟩ := Option.bind_eq_some_iff.mp result
    obtain ⟨n, _, same⟩ := Option.bind_eq_some_iff.mp result
    cases same
    exact Nat.le_refl _
  | equal | numEqual | checkSig | checkMultiSig => exact length_pushing _ ran
  | equalVerify => exact length_passing? .equal ran
  | numEqualVerify => exact length_passing? .numEqual ran
  | checkSigVerify => exact length_passing? .checkSig ran
  | checkMultiSigVerify => exact length_passing? .checkMultiSig ran
  | «if» | notIf | «else» | endIf | toAltStack | fromAltStack => cases ran

/-- What an opcode does to the size of the stacks. -/
theorem size_of_execute? {opcode : Opcode} {store out : Stacks} (ran : e.execute? opcode store = some out) :
    out.size + opcode.pops ≤ store.size + opcode.pushes := by
  have onMain (moved : (e.onMain? opcode store.main).map (Stacks.mk · store.alt) = some out) :
      out.size + opcode.pops ≤ store.size + opcode.pushes := by
    obtain ⟨main, done, rfl⟩ := Option.map_eq_some_iff.mp moved
    have := length_onMain? done
    simp only [Stacks.size]
    omega
  obtain ⟨main, alt⟩ := store
  cases opcode with
  | toAltStack =>
    cases main with
    | nil => cases ran
    | cons top main =>
      cases ran
      simp only [Stacks.size, List.length_cons, Opcode.pops, Opcode.pushes]
      omega
  | fromAltStack =>
    cases alt with
    | nil => cases ran
    | cons top alt =>
      cases ran
      simp only [Stacks.size, List.length_cons, Opcode.pops, Opcode.pushes]
      omega
  | _ => exact onMain ran

end Effect

section Bound

variable {bound : Nat} {script first second : Script} {store : Stacks} {m : Machine}

variable (e) in
/-- Wherever a run stops, no more than so many elements are on the stacks. -/
def StaysWithin (bound : Nat) (script : Script) (m : Machine) : Prop :=
  ∀ front back, script = front ++ back → ∀ n, e.run front m = some n → n.store.size ≤ bound

theorem StaysWithin.mono {bound' : Nat} (within : e.StaysWithin bound script m) (le : bound ≤ bound') :
    e.StaysWithin bound' script m :=
  fun front back split n ran => (within front back split n ran).trans le

theorem StaysWithin.start (within : e.StaysWithin bound script m) : m.store.size ≤ bound :=
  within [] script rfl m rfl

theorem StaysWithin.finish (within : e.StaysWithin bound script m) {n : Machine}
    (ran : e.run script m = some n) : n.store.size ≤ bound :=
  within script [] (List.append_nil script).symm n ran

theorem staysWithin_nil : e.StaysWithin bound [] m ↔ m.store.size ≤ bound := by
  refine ⟨StaysWithin.start, fun within front back split n ran => ?_⟩
  obtain ⟨rfl, _⟩ := List.append_eq_nil_iff.mp split.symm
  cases ran
  exact within

theorem staysWithin_append : e.StaysWithin bound (first ++ second) m ↔
    e.StaysWithin bound first m ∧ ∀ n, e.run first m = some n → e.StaysWithin bound second n := by
  constructor
  · refine fun within => ⟨fun front back split => ?_, fun n ran front back split n' ran' => ?_⟩
    · exact within front (back ++ second) (by rw [split, List.append_assoc])
    · refine within (first ++ front) back (by rw [split, List.append_assoc]) n' ?_
      rw [run_append, ran]
      exact ran'
  · rintro ⟨within, within'⟩ front back split n ran
    obtain ⟨middle, rfl, same⟩ | ⟨middle, rfl, rfl⟩ := List.append_eq_append_iff.mp split
    · rw [run_append] at ran
      obtain ⟨n', ran, ran'⟩ := Option.bind_eq_some_iff.mp ran
      exact within' n' ran middle back same n ran'
    · exact within front middle rfl n ran

theorem staysWithin_singleton {instruction : Instruction} : e.StaysWithin bound [instruction] m ↔
    m.store.size ≤ bound ∧ ∀ n, e.step m instruction = some n → n.store.size ≤ bound := by
  constructor
  · refine fun within => ⟨within.start, fun n ran => within.finish ?_⟩
    rwa [run_singleton]
  · rintro ⟨start, finish⟩ front back split n ran
    obtain ⟨rfl, _⟩ | ⟨rfl, _⟩ := List.append_eq_singleton_iff.mp split.symm
    · cases ran
      exact start
    · rw [run_singleton] at ran
      exact finish n ran

theorem step_small (number : Fin 17) (m : Machine) : e.step m (.small number) =
    whereRunning (fun store => some ⟨Bytes.writeNumber number.val :: store.main, store.alt⟩) m :=
  rfl

/-- A plain instruction does to the stacks what it says where it runs, and nothing elsewhere. -/
theorem size_of_step {instruction : Instruction} (plain : instruction.isPlain = true) {m n : Machine}
    (ran : e.step m instruction = some n) : n.branches = m.branches ∧
      (m.branches.all id = true → n.store.size + instruction.pops ≤ m.store.size + instruction.pushes) ∧
      (m.branches.all id = false → n = m) := by
  have whole {f : Stacks → Option Stacks} (ran : whereRunning f m = some n)
      (effect : ∀ out, f m.store = some out →
        out.size + instruction.pops ≤ m.store.size + instruction.pushes) : n.branches = m.branches ∧
      (m.branches.all id = true → n.store.size + instruction.pops ≤ m.store.size + instruction.pushes) ∧
      (m.branches.all id = false → n = m) := by
    rw [whereRunning] at ran
    split at ran
    next active =>
      obtain ⟨out, done, rfl⟩ := Option.map_eq_some_iff.mp ran
      exact ⟨rfl, fun _ => effect out done, fun skipped => of_false_eq_true (skipped.symm.trans active)⟩
    next skipped =>
      cases ran
      exact ⟨rfl, fun active => absurd active skipped, fun _ => rfl⟩
  have pushed (data : Bytes) (out : Stacks)
      (done : some (Stacks.mk (data :: m.store.main) m.store.alt) = some out) :
      out.size + 0 ≤ m.store.size + 1 := by
    cases done
    simp only [Stacks.size, List.length_cons]
    omega
  cases instruction with
  | push data =>
    rw [step_push] at ran
    exact whole ran (pushed data)
  | small number =>
    rw [step_small] at ran
    exact whole ran (pushed _)
  | op opcode =>
    rw [step_op plain] at ran
    exact whole ran fun out => size_of_execute?

/-- An instruction that takes as many elements as it leaves can follow. -/
theorem StaysWithin.append_shrinking (within : e.StaysWithin bound script m) {instruction : Instruction}
    (plain : instruction.isPlain = true) (shrinks : instruction.pushes ≤ instruction.pops) :
    e.StaysWithin bound (script ++ [instruction]) m := by
  rw [staysWithin_append]
  refine ⟨within, fun n ran => staysWithin_singleton.mpr ⟨within.finish ran, fun n' ran' => ?_⟩⟩
  have before := within.finish ran
  obtain ⟨_, active, skipped⟩ := size_of_step plain ran'
  cases running : n.branches.all id with
  | true =>
    have := active running
    omega
  | false =>
    rw [skipped running]
    exact before

/-- An instruction does nothing to the stacks while a branch around it is skipped, and only counts the
open conditionals. -/
theorem step_skipped {inner branches : List Bool} (skipped : branches.all id = false)
    {instruction : Instruction} {depth : Nat} {n : Machine}
    (counted : instruction.nest inner.length = some depth)
    (ran : e.step ⟨store, inner ++ branches⟩ instruction = some n) :
    ∃ inner', n = ⟨store, inner' ++ branches⟩ ∧ inner'.length = depth := by
  have nothing : (inner ++ branches).all id = false := by
    rw [List.all_append, skipped, Bool.and_false]
  by_cases plain : instruction.isPlain = true
  · rw [Instruction.nest_of_isPlain plain] at counted
    exact ⟨inner, (size_of_step plain ran).2.2 nothing, Option.some.inj counted⟩
  · cases instruction with
    | push | small => exact absurd rfl plain
    | op opcode =>
      have opens (wanted : Bool) (opened : openBranch? wanted ⟨store, inner ++ branches⟩ = some n) :
          n = ⟨store, (false :: inner) ++ branches⟩ := by
        rw [openBranch?, if_neg (Bool.eq_false_iff.mp nothing)] at opened
        exact (Option.some.inj opened).symm
      cases opcode with
      | «if» => exact ⟨_, opens true ran, Option.some.inj counted⟩
      | notIf => exact ⟨_, opens false ran, Option.some.inj counted⟩
      | «else» =>
        cases inner with
        | nil => cases counted
        | cons branch inner =>
          cases counted
          cases ran
          exact ⟨(!branch) :: inner, rfl, rfl⟩
      | endIf =>
        cases inner with
        | nil => cases counted
        | cons branch inner =>
          cases counted
          cases ran
          exact ⟨inner, rfl, rfl⟩
      | _ => exact absurd rfl plain

/-- Nothing happens to the stacks while a branch around a script is skipped. -/
theorem staysWithin_skipped (nested : script.Nested) {branches : List Bool}
    (skipped : branches.all id = false) : e.StaysWithin store.size script ⟨store, branches⟩ := by
  have run {script : Script} (inner : List Bool) {depth : Nat} {n : Machine}
      (counted : script.foldlM Instruction.nest inner.length = some depth)
      (ran : e.run script ⟨store, inner ++ branches⟩ = some n) : n.store = store := by
    induction script generalizing inner with
    | nil =>
      cases ran
      rfl
    | cons instruction rest ih =>
      rw [run_cons] at ran
      rw [List.foldlM_cons] at counted
      obtain ⟨m, ran, ran'⟩ := Option.bind_eq_some_iff.mp ran
      obtain ⟨depth', counted, counted'⟩ := Option.bind_eq_some_iff.mp counted
      obtain ⟨inner', rfl, rfl⟩ := step_skipped skipped counted ran
      exact ih inner' counted' ran'
  rintro front back rfl n ran
  have counted := nested 0
  rw [List.foldlM_append] at counted
  obtain ⟨depth, counted, _⟩ := Option.bind_eq_some_iff.mp counted
  exact Nat.le_of_eq (congrArg Stacks.size (run [] counted ran))

variable (e) in
/-- A script that runs stays within a bound. -/
def Bounded (bound : Nat) (script : Script) (store : Stacks) : Prop :=
  ∀ branches, branches.all id = true → e.StaysWithin bound script ⟨store, branches⟩

theorem Bounded.mono {bound' : Nat} (bounded : e.Bounded bound script store) (le : bound ≤ bound') :
    e.Bounded bound' script store :=
  fun branches active => (bounded branches active).mono le

theorem Bounded.start (bounded : e.Bounded bound script store) : store.size ≤ bound :=
  (bounded [] rfl).start

/-- Without conditionals, the stacks rise as far as the instructions say. -/
theorem bounded_of_rise (plain : script.IsPlain) (le : store.size + script.rise ≤ bound) :
    e.Bounded bound script store := by
  intro branches active
  induction script generalizing store with
  | nil => exact staysWithin_nil.mpr le
  | cons instruction rest ih =>
    obtain ⟨head, others⟩ := List.forall_mem_cons.mp plain
    rw [Script.rise] at le
    rw [← List.singleton_append, staysWithin_append, staysWithin_singleton]
    have effect {n : Machine} (ran : e.step ⟨store, branches⟩ instruction = some n) :
        n.branches = branches ∧ n.store.size + Script.rise rest ≤ bound := by
      obtain ⟨same, running, _⟩ := size_of_step head ran
      have := running active
      refine ⟨same, ?_⟩
      dsimp only at this
      omega
    refine ⟨⟨by dsimp only; omega, fun n ran => ?_⟩, fun n ran => ?_⟩
    · have := (effect ran).2
      omega
    · rw [run_singleton] at ran
      obtain ⟨rfl, low⟩ := effect ran
      exact ih others low

theorem Balanced.bounded_append (balanced : e.Balanced first) (bounded : e.Bounded bound first store)
    (bounded' : ∀ middle, e.exec first store = some middle → e.Bounded bound second middle) :
    e.Bounded bound (first ++ second) store := by
  intro branches active
  rw [staysWithin_append]
  refine ⟨bounded branches active, fun n ran => ?_⟩
  rw [balanced store branches, if_pos active] at ran
  obtain ⟨middle, done, rfl⟩ := Option.map_eq_some_iff.mp ran
  exact bounded' middle done branches active

theorem Bounded.append_shrinking (bounded : e.Bounded bound script store) {instruction : Instruction}
    (plain : instruction.isPlain = true) (shrinks : instruction.pushes ≤ instruction.pops) :
    e.Bounded bound (script ++ [instruction]) store :=
  fun branches active => (bounded branches active).append_shrinking plain shrinks

/-- An opcode in front of a script that stays within a bound from where the opcode leaves the stacks. -/
theorem bounded_op_append {opcode : Opcode} (plain : opcode.isPlain = true) {middle : Stacks}
    (ran : e.execute? opcode store = some middle) (start : store.size ≤ bound)
    (after : e.Bounded bound script middle) : e.Bounded bound ([.op opcode] ++ script) store := by
  have exec := (exec_op plain store).trans ran
  refine (e.balanced_op opcode plain).bounded_append (fun branches active => ?_) fun middle' done => ?_
  · refine staysWithin_singleton.mpr ⟨start, fun n done => ?_⟩
    rw [step_op plain, whereRunning, if_pos active, ran] at done
    cases done
    exact after.start
  · rwa [Option.some.inj (done.symm.trans exec)]

/-- Folding `v:` into the last opcode only takes elements away. -/
theorem Bounded.verified (bounded : e.Bounded bound script store) :
    e.Bounded bound script.verified store := by
  have folded : (Instruction.op .verify).pushes ≤ (Instruction.op .verify).pops := by decide
  unfold Script.verified
  split
  next opcode last =>
    split
    next verifying pair =>
      obtain ⟨front, rfl⟩ := List.getLast?_eq_some_iff.mp last
      have plain : (Instruction.op verifying).isPlain = true ∧
          (Instruction.op verifying).pushes ≤ (Instruction.op verifying).pops := by
        cases opcode <;> cases pair <;> decide
      rw [List.dropLast_concat]
      have before : e.Bounded bound front store :=
        fun branches active => (staysWithin_append.mp (bounded branches active)).1
      exact before.append_shrinking plain.1 plain.2
    next => exact bounded.append_shrinking rfl folded
  next => exact bounded.append_shrinking rfl folded

/-- A branch stays within a bound if it does so where it runs. -/
private theorem staysWithin_branch (nested : script.Nested) {branch : Bool} {branches : List Bool}
    (active : branches.all id = true) (start : store.size ≤ bound)
    (bounded : branch = true → e.Bounded bound script store) :
    e.StaysWithin bound script ⟨store, branch :: branches⟩ := by
  cases branch with
  | true => exact bounded rfl (true :: branches) active
  | false => exact (staysWithin_skipped nested rfl).mono start

theorem openBranch?_writeBool (wanted value : Bool) (rest alt : List Bytes) {branches : List Bool}
    (active : branches.all id = true) :
    openBranch? wanted ⟨⟨Bytes.writeBool value :: rest, alt⟩, branches⟩ =
      some ⟨⟨rest, alt⟩, (value == wanted) :: branches⟩ := by
  rw [openBranch?, if_pos active, condition?_eq_some.mpr rfl]
  rfl

/-- A turn to the other branch or the end of a conditional leaves the stacks as they are. -/
private theorem StaysWithin.append_turn (within : e.StaysWithin bound script m) {opcode : Opcode}
    (turns : opcode = .else ∨ opcode = .endIf) : e.StaysWithin bound (script ++ [.op opcode]) m := by
  rw [staysWithin_append]
  refine ⟨within, fun n ran => staysWithin_singleton.mpr ⟨within.finish ran, fun n' turned => ?_⟩⟩
  have before := within.finish ran
  obtain ⟨store, branches⟩ := n
  cases branches with
  | nil => rcases turns with rfl | rfl <;> cases turned
  | cons branch outer => rcases turns with rfl | rfl <;> cases turned <;> exact before

section Conditional

variable {x y : Script} {value wanted : Bool} {rest alt : List Bytes}

private theorem staysWithin_opening (nested : x.Nested) (start : rest.length + 1 + alt.length ≤ bound)
    (bounded : value = wanted → e.Bounded bound x ⟨rest, alt⟩) {branches : List Bool}
    (active : branches.all id = true) :
    e.StaysWithin bound ([opening wanted] ++ x) ⟨⟨Bytes.writeBool value :: rest, alt⟩, branches⟩ := by
  have low : (Stacks.mk rest alt).size ≤ bound := by
    simp only [Stacks.size]
    omega
  rw [staysWithin_append, staysWithin_singleton, run_singleton, step_opening,
    openBranch?_writeBool wanted value rest alt active]
  refine ⟨⟨start, ?_⟩, ?_⟩ <;> rintro n ⟨⟩
  · exact low
  · exact staysWithin_branch nested active low fun same => bounded (beq_iff_eq.mp same)

/-- A conditional with one branch stays within a bound if the branch does where it runs. -/
theorem bounded_conditional (nested : x.Nested) (start : rest.length + 1 + alt.length ≤ bound)
    (bounded : value = wanted → e.Bounded bound x ⟨rest, alt⟩) :
    e.Bounded bound ([opening wanted] ++ x ++ [.op .endIf]) ⟨Bytes.writeBool value :: rest, alt⟩ :=
  fun _ active => (staysWithin_opening nested start bounded active).append_turn (.inr rfl)

/-- A conditional with two branches stays within a bound if the branch that runs does. -/
theorem bounded_alternative (balanced : e.Balanced x) (nested : x.Nested) (nested' : y.Nested)
    (start : rest.length + 1 + alt.length ≤ bound)
    (bounded : e.Bounded bound (if value = wanted then x else y) ⟨rest, alt⟩) :
    e.Bounded bound ([opening wanted] ++ x ++ [.op .else] ++ y ++ [.op .endIf])
      ⟨Bytes.writeBool value :: rest, alt⟩ := by
  intro branches active
  have first (same : value = wanted) : e.Bounded bound x ⟨rest, alt⟩ := by
    rwa [if_pos same] at bounded
  have turned := (staysWithin_opening nested start first active).append_turn (.inl rfl)
  refine StaysWithin.append_turn (staysWithin_append.mpr ⟨turned, fun n ran => ?_⟩) (.inr rfl)
  have low := turned.finish ran
  rw [List.append_assoc, run_opening, openBranch?_writeBool wanted value rest alt active,
    Option.bind_some] at ran
  change e.run (x ++ ([.op .else] ++ [])) _ = _ at ran
  rw [balanced.run_else, active, Bool.and_true] at ran
  by_cases same : value = wanted
  · rw [if_pos (beq_iff_eq.mpr same)] at ran
    obtain ⟨middle, _, done⟩ := Option.bind_eq_some_iff.mp ran
    cases done
    refine staysWithin_branch nested' active low fun other => ?_
    simp [same] at other
  · rw [if_neg (fun equal => same (beq_iff_eq.mp equal))] at ran
    cases ran
    rw [if_neg same] at bounded
    exact staysWithin_branch nested' active low fun _ => bounded

end Conditional

end Bound

end Evaluator

section Templates

variable {κ : Type} [PublicKey κ] (context : Context)

namespace Instruction

@[simp] theorem isPlain_push (data : Bytes) : (push data).isPlain = true := rfl

@[simp] theorem isPlain_op (opcode : Opcode) : (op opcode).isPlain = opcode.isPlain := rfl

@[simp] theorem isPlain_ofNumber (number : Nat) : (ofNumber number).isPlain = true := by
  unfold ofNumber
  split <;> rfl

theorem pushes_ofNumber (number : Nat) : (ofNumber number).pushes = 1 := by
  unfold ofNumber
  split <;> rfl

theorem pops_ofNumber (number : Nat) : (ofNumber number).pops = 0 := by
  unfold ofNumber
  split <;> rfl

end Instruction

namespace Script

theorem isPlain_checkSigChain (keys : List κ) : IsPlain (checkSigChain context keys) := by
  cases keys with
  | nil => exact List.forall_mem_nil _
  | cons first rest =>
    refine isPlain_append.mpr ⟨by simp [pushKey, Opcode.isPlain], fun i member => ?_⟩
    obtain ⟨key, _, among⟩ := List.mem_flatMap.mp member
    exact (show IsPlain [pushKey context key, .op .checkSigAdd] by simp [pushKey, Opcode.isPlain]) i among

/-- Leaves have no conditionals. -/
theorem isPlain_ofLeaf (l : Leaf κ Digest) : IsPlain (ofLeaf context l) := by
  cases l with
  | one | zero | key k | keyHash k | after lock | older lock => simp [ofLeaf, pushKey, Opcode.isPlain]
  | digest d => cases kind : d.kind <;> simp [ofLeaf, kind, hashOpcode, Opcode.isPlain]
  | multi ks =>
    have keys : IsPlain (ks.items.map (pushKey context)) := List.forall_mem_map.mpr fun _ _ => rfl
    simp [ofLeaf, keys, Opcode.isPlain]
  | multiA ks => simp [ofLeaf, isPlain_checkSigChain, Opcode.isPlain]

/-- The conditionals of every condition are bracketed. -/
theorem bracketed_script {α : Type} (t : Condition κ Digest α) : Bracketed (t.script context) := by
  induction t using Condition.induct with
  | leaf note l =>
    rw [Condition.script_leaf]
    exact (isPlain_ofLeaf context l).bracketed
  | wrap note w x ih =>
    rw [Condition.script_wrap]
    cases w with
    | alt => exact ((bracketed_op .toAltStack rfl).append ih).append (bracketed_op .fromAltStack rfl)
    | swap => exact (bracketed_op .swap rfl).append ih
    | check => exact ih.append (bracketed_op .checkSig rfl)
    | zeroNotEqual => exact ih.append (bracketed_op .zeroNotEqual rfl)
    | dupIf => exact (bracketed_op .dup rfl).append (ih.conditional true)
    | verify => exact ih.verified
    | nonzero =>
      exact (bracketed_op .size rfl).append ((bracketed_op .zeroNotEqual rfl).append (ih.conditional true))
  | pair note op x y ihX ihY =>
    rw [Condition.script_pair]
    cases op with
    | andV => exact ihX.append ihY
    | andB => exact (ihX.append ihY).append (bracketed_op .boolAnd rfl)
    | orB => exact (ihX.append ihY).append (bracketed_op .boolOr rfl)
    | orD =>
      have decided := ihX.append ((bracketed_op .ifDup rfl).append (ihY.conditional false))
      simpa [pair, Evaluator.opening] using decided
    | orC =>
      have decided := ihX.append (ihY.conditional false)
      simpa [pair, Evaluator.opening] using decided
    | orI => exact ihX.alternative true ihY
  | andOr note x y z ihX ihY ihZ =>
    have decided := ihX.append (ihZ.alternative false ihY)
    rw [Condition.script_andOr]
    simpa [andOr, Evaluator.opening] using decided
  | thresh note k items ih =>
    have compared : Bracketed [.ofNumber k, .op .equal] := IsPlain.bracketed (by simp [Opcode.isPlain])
    rw [Condition.script_thresh]
    cases items with
    | nil => exact compared
    | cons first rest =>
      obtain ⟨head, others⟩ := List.forall_mem_cons.mp ih
      refine (head.append ?_).append compared
      rw [List.flatMap_map]
      exact .flatMap fun x member => (others x member).append (bracketed_op .add rfl)

/-- Every condition closes the conditionals that it opens. -/
theorem nested_script {α : Type} (t : Condition κ Digest α) : Nested (t.script context) :=
  (bracketed_script context t).nested

/-- Keys pile up on the stack. -/
theorem rise_pushKeys (keys : List κ) (next : Script) :
    rise (keys.map (pushKey context) ++ next) = keys.length + rise next := by
  induction keys with
  | nil => exact (Nat.zero_add _).symm
  | cons key rest ih =>
    rw [List.map_cons, List.cons_append, rise, ih, List.length_cons]
    change 1 + (rest.length + rise next) - 0 = _
    omega

/-- The checks of a `multi_a` take one signature after the other. -/
theorem rise_checkSigChain (keys : List κ) {next : Script} (low : rise next ≤ 2) :
    rise (checkSigChain context keys ++ next) ≤ 2 := by
  have added (rest : List κ) :
      rise ((rest.flatMap fun key => [pushKey context key, .op .checkSigAdd]) ++ next) ≤ 2 := by
    induction rest with
    | nil => exact low
    | cons key rest ih =>
      rw [List.flatMap_cons, List.append_assoc, List.cons_append, List.cons_append, List.nil_append,
        rise, rise]
      change 1 + (1 + rise _ - 3) - 0 ≤ 2
      omega
  cases keys with
  | nil => exact low
  | cons first rest =>
    have := added rest
    rw [checkSigChain, List.append_assoc, List.cons_append, List.cons_append, List.nil_append, rise, rise]
    change 1 + (1 + rise _ - 2) - 0 ≤ 2
    omega

end Script

end Templates

end LockScript
