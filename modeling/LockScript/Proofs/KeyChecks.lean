import LockScript.Proofs.RunBound

/-! # Keys of multisignature checks

A multisignature check counts as many operations as it takes keys, but only where it runs. How many keys
a run takes adds up along the script: nothing is added where a branch is skipped, and what runs after
another script finds the stacks as that has left them.
-/

namespace LockScript

/-- Whether an instruction checks signatures against several keys. -/
def Instruction.checksMany : Instruction → Bool
  | .op .checkMultiSig | .op .checkMultiSigVerify => true
  | _ => false

theorem Instruction.checksMany_ofNumber (number : Nat) : (ofNumber number).checksMany = false := by
  unfold ofNumber
  split <;> rfl

namespace Evaluator

variable (e : Evaluator)

/-- How many keys an instruction takes, if it is a multisignature check and runs. -/
def keysTaken (m : Machine) (instruction : Instruction) : Nat :=
  if instruction.checksMany && m.branches.all id then
    (takeCounted? m.store.main).elim 0 fun taken => taken.1.length
  else 0

/-- How many keys the multisignature checks of a run take together. -/
def keysChecked : Script → Machine → Nat
  | [], _ => 0
  | first :: rest, m => keysTaken m first + (e.step m first).elim 0 (keysChecked rest)

variable {e}

section Count

variable {script first second : Script} {instruction : Instruction} {m : Machine} {store : Stacks}
  {branches : List Bool}

theorem keysTaken_of_few (few : instruction.checksMany = false) : keysTaken m instruction = 0 := by
  rw [keysTaken, few, Bool.false_and, if_neg Bool.false_ne_true]

theorem keysTaken_skipped (skipped : m.branches.all id = false) : keysTaken m instruction = 0 := by
  rw [keysTaken, skipped, Bool.and_false, if_neg Bool.false_ne_true]

theorem keysChecked_append : e.keysChecked (first ++ second) m =
    e.keysChecked first m + (e.run first m).elim 0 (e.keysChecked second) := by
  induction first generalizing m with
  | nil => exact (Nat.zero_add _).symm
  | cons instruction rest ih =>
    rw [List.cons_append, keysChecked, keysChecked, run_cons]
    cases e.step m instruction with
    | none => rfl
    | some n => exact (congrArg _ ih).trans (Nat.add_assoc ..).symm

theorem keysChecked_singleton : e.keysChecked [instruction] m = keysTaken m instruction := by
  rw [keysChecked]
  cases e.step m instruction <;> rfl

theorem keysChecked_concat (few : instruction.checksMany = false) :
    e.keysChecked (script ++ [instruction]) m = e.keysChecked script m := by
  rw [keysChecked_append]
  cases e.run script m with
  | none => rfl
  | some n =>
    change _ + e.keysChecked [instruction] n = _
    rw [keysChecked_singleton, keysTaken_of_few few, Nat.add_zero]

theorem keysChecked_cons (few : instruction.checksMany = false) :
    e.keysChecked (instruction :: script) m = (e.step m instruction).elim 0 (e.keysChecked script) := by
  rw [keysChecked, keysTaken_of_few few, Nat.zero_add]

/-- Without multisignature checks no keys are taken. -/
theorem keysChecked_eq_zero (few : ∀ instruction ∈ script, instruction.checksMany = false) :
    e.keysChecked script m = 0 := by
  induction script generalizing m with
  | nil => rfl
  | cons instruction rest ih =>
    obtain ⟨head, others⟩ := List.forall_mem_cons.mp few
    rw [keysChecked_cons head]
    cases e.step m instruction with
    | none => rfl
    | some n => exact ih others

/-- Where a branch around a script is skipped no keys are taken. -/
theorem keysChecked_skipped (nested : script.Nested) (skipped : branches.all id = false) :
    e.keysChecked script ⟨store, branches⟩ = 0 := by
  have run (inner : List Bool) {depth : Nat}
      (counted : script.foldlM Instruction.nest inner.length = some depth) :
      e.keysChecked script ⟨store, inner ++ branches⟩ = 0 := by
    clear nested
    induction script generalizing inner with
    | nil => rfl
    | cons instruction rest ih =>
      rw [List.foldlM_cons] at counted
      obtain ⟨middle, counted, others⟩ := Option.bind_eq_some_iff.mp counted
      have nothing : (inner ++ branches).all id = false := by
        rw [List.all_append, skipped, Bool.and_false]
      rw [keysChecked, keysTaken_skipped nothing, Nat.zero_add]
      cases ran : e.step ⟨store, inner ++ branches⟩ instruction with
      | none => rfl
      | some n =>
        obtain ⟨inner', rfl, rfl⟩ := step_skipped skipped counted ran
        exact ih inner' others
  exact run [] (nested 0)

/-- Folding `v:` into the last opcode keeps its keys. -/
theorem keysChecked_verified : e.keysChecked script.verified m = e.keysChecked script m := by
  unfold Script.verified
  split
  next opcode last =>
    split
    next verifying pair =>
      obtain ⟨front, rfl⟩ := List.getLast?_eq_some_iff.mp last
      have same : (Instruction.op verifying).checksMany = (Instruction.op opcode).checksMany := by
        cases opcode <;> cases pair <;> rfl
      rw [List.dropLast_concat, keysChecked_append, keysChecked_append]
      cases e.run front m with
      | none => rfl
      | some n =>
        change _ + e.keysChecked [_] n = _ + e.keysChecked [_] n
        rw [keysChecked_singleton, keysChecked_singleton, keysTaken, keysTaken, same]
    next => exact keysChecked_concat rfl
  next => exact keysChecked_concat rfl

end Count

variable (e) in
/-- A script that runs takes no more keys than so many. -/
def ChecksAtMost (count : Nat) (script : Script) (store : Stacks) : Prop :=
  ∀ branches, branches.all id = true → e.keysChecked script ⟨store, branches⟩ ≤ count

section Bound

variable {count count' : Nat} {script first second x y : Script} {store : Stacks}

theorem ChecksAtMost.mono (checks : e.ChecksAtMost count script store) (le : count ≤ count') :
    e.ChecksAtMost count' script store :=
  fun branches active => (checks branches active).trans le

theorem ChecksAtMost.concat (checks : e.ChecksAtMost count script store) {instruction : Instruction}
    (few : instruction.checksMany = false) : e.ChecksAtMost count (script ++ [instruction]) store :=
  fun branches active => (keysChecked_concat few).trans_le (checks branches active)

theorem ChecksAtMost.verified (checks : e.ChecksAtMost count script store) :
    e.ChecksAtMost count script.verified store :=
  fun branches active => keysChecked_verified.trans_le (checks branches active)

/-- An opcode in front that is no multisignature check. -/
theorem ChecksAtMost.op_append {opcode : Opcode} {middle : Stacks} (checks : e.ChecksAtMost count script middle)
    (plain : opcode.isPlain = true) (few : (Instruction.op opcode).checksMany = false)
    (ran : e.execute? opcode store = some middle) : e.ChecksAtMost count ([.op opcode] ++ script) store := by
  intro branches active
  rw [List.singleton_append, keysChecked_cons few, step_op plain, whereRunning, if_pos active, ran]
  exact checks branches active

theorem Balanced.checks_append (balanced : e.Balanced first) (checks : e.ChecksAtMost count first store)
    (checks' : ∀ middle, e.exec first store = some middle → e.ChecksAtMost count' second middle) :
    e.ChecksAtMost (count + count') (first ++ second) store := by
  intro branches active
  rw [keysChecked_append, balanced store branches, if_pos active]
  refine Nat.add_le_add (checks branches active) ?_
  cases done : e.exec first store with
  | none => exact Nat.zero_le _
  | some middle => exact checks' middle done branches active

/-- Keys are only taken in a branch that runs. -/
private theorem keysChecked_branch (nested : script.Nested) {branch : Bool} {branches : List Bool}
    (active : branches.all id = true) (checks : branch = true → e.ChecksAtMost count script store) :
    e.keysChecked script ⟨store, branch :: branches⟩ ≤ count := by
  cases branch with
  | true => exact checks rfl (true :: branches) active
  | false => exact (keysChecked_skipped nested rfl).trans_le (Nat.zero_le count)

variable {value wanted : Bool} {rest alt : List Bytes} {branches : List Bool}

private theorem keysChecked_opening (active : branches.all id = true) (next : Script) :
    e.keysChecked ([opening wanted] ++ next) ⟨⟨Bytes.writeBool value :: rest, alt⟩, branches⟩ =
      e.keysChecked next ⟨⟨rest, alt⟩, (value == wanted) :: branches⟩ := by
  have few : (opening wanted).checksMany = false := by cases wanted <;> rfl
  rw [List.singleton_append, keysChecked_cons few, step_opening,
    openBranch?_writeBool wanted value rest alt active]
  rfl

/-- A conditional with one branch takes the keys of the branch if that runs. -/
theorem checks_conditional (nested : x.Nested)
    (checks : value = wanted → e.ChecksAtMost count x ⟨rest, alt⟩) :
    e.ChecksAtMost count ([opening wanted] ++ x ++ [.op .endIf]) ⟨Bytes.writeBool value :: rest, alt⟩ := by
  intro branches active
  rw [keysChecked_concat rfl, keysChecked_opening active]
  exact keysChecked_branch nested active fun same => checks (beq_iff_eq.mp same)

/-- A conditional with two branches takes the keys of the branch that runs. -/
theorem checks_alternative (balanced : e.Balanced x) (nested : x.Nested) (nested' : y.Nested)
    (checks : e.ChecksAtMost count (if value = wanted then x else y) ⟨rest, alt⟩) :
    e.ChecksAtMost count ([opening wanted] ++ x ++ [.op .else] ++ y ++ [.op .endIf])
      ⟨Bytes.writeBool value :: rest, alt⟩ := by
  intro branches active
  rw [keysChecked_concat rfl, keysChecked_append, keysChecked_concat rfl, keysChecked_opening active,
    List.append_assoc, run_opening, openBranch?_writeBool wanted value rest alt active, Option.bind_some]
  change _ + (e.run (x ++ ([.op .else] ++ [])) _).elim 0 _ ≤ _
  rw [balanced.run_else, active, Bool.and_true]
  by_cases same : value = wanted
  · rw [if_pos same] at checks
    rw [beq_iff_eq.mpr same, if_pos rfl]
    refine (Nat.add_le_add (checks (true :: branches) active) (Nat.le_of_eq ?_)).trans_eq (Nat.add_zero count)
    cases e.exec x ⟨rest, alt⟩ with
    | none => rfl
    | some middle => exact keysChecked_skipped nested' rfl
  · rw [if_neg same] at checks
    rw [beq_eq_false_iff_ne.mpr same, if_neg Bool.false_ne_true, keysChecked_skipped nested rfl, Nat.zero_add]
    exact checks (true :: branches) active

end Bound

variable (e) in
/-- On the elements that it takes, a script takes no more than `count` keys. -/
def Checks (script : Script) (taken : List Bytes) (count : Nat) : Prop :=
  ∀ rest alt, e.ChecksAtMost count script ⟨taken ++ rest, alt⟩

variable (e) in
/-- The same for a script that works below the top element. -/
def ChecksBelow (script : Script) (taken : List Bytes) (count : Nat) : Prop :=
  ∀ top rest alt, e.ChecksAtMost count script ⟨top :: (taken ++ rest), alt⟩

section Templates

variable {sx sy sz script : Script} {upper lower taken : List Bytes} {count count' : Nat}

theorem Checks.concat (checks : e.Checks script taken count) {instruction : Instruction}
    (few : instruction.checksMany = false) : e.Checks (script ++ [instruction]) taken count :=
  fun rest alt => (checks rest alt).concat few

theorem Checks.verified (checks : e.Checks script taken count) : e.Checks script.verified taken count :=
  fun rest alt => (checks rest alt).verified

theorem Checks.alt (checks : e.Checks script taken count) :
    e.ChecksBelow (Script.wrap .alt script) taken count :=
  fun top rest alt => ((checks rest (top :: alt)).concat rfl).op_append rfl rfl rfl

theorem Checks.swap {a : Bytes} (checks : e.Checks script [a] count) :
    e.ChecksBelow (Script.wrap .swap script) [a] count :=
  fun top rest alt => (checks (top :: rest) alt).op_append rfl rfl rfl

theorem checks_dupIf (value : Bool) (nested : script.Nested)
    (checks : value = true → e.Checks script [] count) :
    e.Checks (Script.wrap .dupIf script) [Bytes.writeBool value] count := by
  intro rest alt
  rw [wrap_dupIf]
  exact (checks_conditional nested fun yes => checks yes (Bytes.writeBool value :: rest) alt).op_append
    rfl rfl rfl

/-- The size of an element is zero only if the element is empty. -/
theorem checks_nonzero {top : Bytes} (nested : script.Nested) (short : top.length < 2 ^ 39)
    (checks : top ≠ [] → e.Checks script (top :: taken) count) :
    e.Checks (Script.wrap .nonzero script) (top :: taken) count := by
  intro rest alt
  have compared : e.execute? .zeroNotEqual ⟨Bytes.writeNumber top.length :: top :: (taken ++ rest), alt⟩ =
      some ⟨Bytes.writeBool (top != []) :: top :: (taken ++ rest), alt⟩ := by
    rw [execute?_zeroNotEqual, Bytes.readNumber_writeNumber, if_pos short]
    cases top <;> rfl
  rw [wrap_nonzero]
  refine ChecksAtMost.op_append (ChecksAtMost.op_append ?_ rfl rfl compared) rfl rfl rfl
  exact checks_conditional nested fun yes => checks (bne_iff_ne.mp yes) rest alt

/-- A script that runs after another finds what that has left in the place of its elements. -/
theorem Checks.append (left : List Bytes → Prop) (first : e.Checks sx upper count)
    (balanced : e.Balanced sx)
    (ran : ∀ rest alt, ∃ l, left l ∧ e.exec sx ⟨upper ++ rest, alt⟩ = some ⟨l ++ rest, alt⟩)
    (second : ∀ l rest alt, left l → e.ChecksAtMost count' script ⟨l ++ (lower ++ rest), alt⟩) :
    e.Checks (sx ++ script) (upper ++ lower) (count + count') := by
  intro rest alt
  rw [List.append_assoc]
  refine balanced.checks_append (first (lower ++ rest) alt) fun middle done => ?_
  obtain ⟨l, isLeft, exec⟩ := ran (lower ++ rest) alt
  obtain rfl := Option.some.inj (done.symm.trans exec)
  exact second l rest alt isLeft

section Answers

variable {relX : AnswerRel} {unit answer : Bool}

theorem Checks.append_answer (first : e.Checks sx upper count) (balanced : e.Balanced sx)
    (x : e.AnswersB relX unit sx) (run : relX answer upper)
    (second : ∀ result rest alt, Denotes unit answer result →
      e.ChecksAtMost count' script ⟨result :: (lower ++ rest), alt⟩) :
    e.Checks (sx ++ script) (upper ++ lower) (count + count') := by
  let left (l : List Bytes) : Prop := ∃ result, Denotes unit answer result ∧ l = [result]
  refine first.append left balanced (fun rest alt => ?_) ?_
  · obtain ⟨result, denotes, ran⟩ := x.complete rest alt run
    exact ⟨[result], ⟨result, denotes, rfl⟩, ran⟩
  · rintro _ rest alt ⟨result, denotes, rfl⟩
    exact second result rest alt denotes

theorem Checks.andV (first : e.Checks sx upper count) (balanced : e.Balanced sx)
    (x : e.AnswersV relX sx) (run : relX true upper) (second : e.Checks sy lower count') :
    e.Checks (sx ++ sy) (upper ++ lower) (count + count') := by
  refine first.append (· = []) balanced (fun rest alt => ⟨[], rfl, x.complete rest alt run⟩) ?_
  rintro _ rest alt rfl
  exact second rest alt

/-- The second script runs below the answer of the first. -/
theorem Checks.join (first : e.Checks sx upper count) (balanced : e.Balanced sx)
    (x : e.AnswersB relX unit sx) (run : relX answer upper) (second : e.ChecksBelow sy lower count') :
    e.Checks (sx ++ sy) (upper ++ lower) (count + count') :=
  first.append_answer balanced x run fun result rest alt _ => second result rest alt

theorem Checks.orC (first : e.Checks sx upper count) (balanced : e.Balanced sx)
    (x : e.AnswersB relX true sx) (run : relX answer upper) (nested : sy.Nested)
    (second : answer = false → e.Checks sy lower count') :
    e.Checks (Script.pair .orC sx sy) (upper ++ lower) (count + count') := by
  rw [pair_orC]
  refine first.append_answer balanced x run fun result rest alt denotes => ?_
  obtain rfl := denotes.eq_writeBool
  exact checks_conditional nested fun no => second no rest alt

theorem Checks.orD (first : e.Checks sx upper count) (balanced : e.Balanced sx)
    (x : e.AnswersB relX true sx) (run : relX answer upper) (nested : sy.Nested)
    (second : answer = false → e.Checks sy lower count') :
    e.Checks (Script.pair .orD sx sy) (upper ++ lower) (count + count') := by
  rw [pair_orD]
  refine first.append_answer balanced x run fun result rest alt denotes => ?_
  obtain rfl := denotes.eq_writeBool
  have copied := exec_ifDup (e := e) answer (lower ++ rest) alt
  rw [exec_op rfl] at copied
  refine (checks_conditional nested fun no => ?_).op_append rfl rfl copied
  rw [if_neg (no ▸ Bool.false_ne_true)]
  exact second no rest alt

theorem checks_orI (value : Bool) (balanced : e.Balanced sx) (nested : sx.Nested) (nested' : sy.Nested)
    (checks : e.Checks (if value = true then sx else sy) taken count) :
    e.Checks (Script.pair .orI sx sy) (Bytes.writeBool value :: taken) count :=
  fun rest alt => checks_alternative balanced nested nested' (checks rest alt)

theorem Checks.andOr (first : e.Checks sx upper count) (balanced : e.Balanced sx)
    (x : e.AnswersB relX true sx) (run : relX answer upper) (balanced' : e.Balanced sz)
    (nested : sz.Nested) (nested' : sy.Nested)
    (second : e.Checks (if answer = false then sz else sy) lower count') :
    e.Checks (Script.andOr sx sy sz) (upper ++ lower) (count + count') := by
  rw [andOr_eq]
  refine first.append_answer balanced x run fun result rest alt denotes => ?_
  obtain rfl := denotes.eq_writeBool
  exact checks_alternative balanced' nested nested' (second rest alt)

end Answers

section Sum

variable {α : Type} {rels : α → AnswerRel} {scripts : α → Script}

/-- The children of a threshold run one after the other below the sum. -/
private theorem checks_sum {items : List α} {parts : List (List Bytes × Nat)}
    (answers : ∀ x ∈ items, e.AnswersW (rels x) true (scripts x))
    (balanced : ∀ x ∈ items, e.Balanced (scripts x))
    (runs : List.Forall₂ (fun x part => (∃ answer, rels x answer part.1) ∧
      e.ChecksBelow (scripts x) part.1 part.2) items parts)
    {next : Script} (few : ∀ instruction ∈ next, instruction.checksMany = false) {sum : Nat}
    {rest alt : List Bytes} :
    e.ChecksAtMost (parts.map Prod.snd).sum ((items.flatMap fun x => scripts x ++ [.op .add]) ++ next)
      ⟨Bytes.writeNumber sum :: (parts.flatMap Prod.fst ++ rest), alt⟩ := by
  induction runs generalizing sum with
  | nil => exact fun branches _ => Nat.le_of_eq (keysChecked_eq_zero few)
  | @cons x part items parts head _ ih =>
    obtain ⟨answersX, answersRest⟩ := List.forall_mem_cons.mp answers
    obtain ⟨balancedX, balancedRest⟩ := List.forall_mem_cons.mp balanced
    obtain ⟨⟨answer, run⟩, checks⟩ := head
    rw [List.flatMap_cons, List.flatMap_cons, List.append_assoc _ _ next, List.append_assoc part.1,
      List.map_cons, List.sum_cons]
    refine (balancedX.append (e.balanced_op .add rfl)).checks_append ((checks _ _ alt).concat rfl)
      fun middle done => ?_
    -- The sum must have been readable.
    obtain ⟨_, _, _, _, _, readable, _⟩ := (answersX.exec_add balancedX).mp done
    have exec : e.exec (scripts x ++ [.op .add])
        ⟨Bytes.writeNumber sum :: (part.1 ++ (parts.flatMap Prod.fst ++ rest)), alt⟩ =
          some ⟨Bytes.writeNumber (sum + answer.toNat : Nat) :: (parts.flatMap Prod.fst ++ rest), alt⟩ :=
      (answersX.exec_add balancedX).mpr ⟨answer, part.1, _, rfl, run, readable, rfl⟩
    obtain rfl := Option.some.inj (done.symm.trans exec)
    exact ih answersRest balancedRest

variable (rels scripts) in
theorem checks_threshold {k : Nat} {first : α} {items : List α} {own : List Bytes × Nat}
    {parts : List (List Bytes × Nat)} {answer : Bool}
    (head : e.AnswersB (rels first) true (scripts first)) (balancedHead : e.Balanced (scripts first))
    (others : ∀ x ∈ items, e.AnswersW (rels x) true (scripts x))
    (balanced : ∀ x ∈ items, e.Balanced (scripts x)) (run : rels first answer own.1)
    (checks : e.Checks (scripts first) own.1 own.2)
    (runs : List.Forall₂ (fun x part => (∃ answer, rels x answer part.1) ∧
      e.ChecksBelow (scripts x) part.1 part.2) items parts) :
    e.Checks (Script.threshold k ((first :: items).map scripts)) ((own :: parts).flatMap Prod.fst)
      ((own :: parts).map Prod.snd).sum := by
  rw [threshold_cons, List.flatMap_cons, List.map_cons, List.sum_cons]
  refine checks.append_answer balancedHead head run fun result rest alt denotes => ?_
  obtain rfl := denotes.eq_writeBool
  rw [Bytes.writeBool_eq]
  exact checks_sum others balanced runs
    (List.forall_mem_cons.mpr ⟨Instruction.checksMany_ofNumber k, List.forall_mem_singleton.mpr rfl⟩)

end Sum

variable (e) in
/-- How many keys a script of some base type takes. -/
def ChecksAs (base : Base) (script : Script) (taken : List Bytes) (count : Nat) : Prop :=
  match base with
  | .B | .K | .V => e.Checks script taken count
  | .W => e.ChecksBelow script taken count

theorem ChecksAs.mono {base : Base} (checks : e.ChecksAs base script taken count) (le : count ≤ count') :
    e.ChecksAs base script taken count' := by
  cases base with
  | B | K | V => exact fun rest alt => (checks rest alt).mono le
  | W => exact fun top rest alt => (checks top rest alt).mono le

theorem checksAs_of_ne {base : Base} (stackLike : base ≠ .W) :
    e.ChecksAs base script taken count ↔ e.Checks script taken count := by
  cases base with
  | B | K | V => rfl
  | W => exact absurd rfl stackLike

end Templates

variable (e) in
/-- The multisignature checks of a run take no more keys than a usage says. -/
def keyUse : RunBound :=
  fun base script taken u => e.ChecksAs base script taken u.execOpcodes

variable (e) in
/-- A fragment takes the keys that its children take. -/
theorem composes_keyUse : e.keyUse.Composes e where
  worst := by
    intro base script taken u other checks
    exact ⟨checks.mono (Nat.le_max_left _ _), checks.mono (Nat.le_max_right _ _)⟩
  select _ checks := checks
  alt checks := Checks.alt checks
  swap checks := Checks.swap checks
  check checks := Checks.concat checks rfl
  verify checks := Checks.verified checks
  zeroNotEqual checks := Checks.concat checks rfl
  dupIf nested checks := checks_dupIf true nested fun _ => checks
  dupIf_skipped nested := checks_dupIf false nested fun no => absurd no Bool.false_ne_true
  nonzero nested short checks := checks_nonzero nested short fun _ => checks
  nonzero_skipped nested := checks_nonzero nested (by decide) fun nonempty => absurd rfl nonempty
  andV stackLike balanced answers run first second :=
    (checksAs_of_ne stackLike).mpr
      (Checks.andV first balanced answers run ((checksAs_of_ne stackLike).mp second))
  join joins balanced answers run first second := by
    obtain rfl | rfl := joins <;> exact (Checks.join first balanced answers run second).concat rfl
  orC_skipped := by
    intro sx sy upper u rel balanced answers nested run first
    have whole : e.Checks (Script.pair .orC sx sy) (upper ++ []) (u.execOpcodes + 0) :=
      Checks.orC first balanced answers run nested fun no => absurd no (by decide)
    rwa [List.append_nil] at whole
  orC balanced answers nested run first second :=
    Checks.orC first balanced answers run nested fun _ => second
  orD_skipped := by
    intro sx sy upper other u rel balanced answers nested run _ first
    have whole : e.Checks (Script.pair .orD sx sy) (upper ++ []) (u.execOpcodes + 0) :=
      Checks.orD first balanced answers run nested fun no => absurd no (by decide)
    rwa [List.append_nil] at whole
  orD _ balanced answers nested run first second :=
    Checks.orD first balanced answers run nested fun _ => second
  orI value stackLike balanced nested nested' checks :=
    (checksAs_of_ne stackLike).mpr
      (checks_orI value balanced nested nested' ((checksAs_of_ne stackLike).mp checks))
  andOr stackLike balanced answers run balanced' nested nested' first second :=
    (checksAs_of_ne stackLike).mpr (Checks.andOr first balanced answers run balanced' nested nested'
      ((checksAs_of_ne stackLike).mp second))
  threshold := by
    intro α rels scripts k first items own parts whole head balancedHead others balanced run checks runs
      gathers
    have runs' : List.Forall₂ (fun x (part : List Bytes × Nat) => (∃ answer, rels x answer part.1) ∧
        e.ChecksBelow (scripts x) part.1 part.2) items
          (parts.map fun part => (part.taken, part.usage.execOpcodes)) := by
      rw [List.forall₂_map_right_iff]
      exact runs.imp fun _ _ run => ⟨⟨_, run.1⟩, run.2⟩
    have added : e.Checks (Script.threshold k ((first :: items).map scripts))
        (((own :: parts).map fun part => (part.taken, part.usage.execOpcodes)).flatMap Prod.fst)
        (((own :: parts).map fun part => (part.taken, part.usage.execOpcodes)).map Prod.snd).sum :=
      checks_threshold rels scripts head balancedHead others balanced run checks runs'
    have le := gathers.execOpcodes
    rw [List.map_map] at le
    rw [List.flatMap_map, List.map_map] at added
    exact ChecksAs.mono added le

section Leaf

variable {κ : Type} [PublicKey κ] {context : Context} {branches : List Bool}

private theorem keysChecked_pushKeys (keys : List κ) (next : Script) (main alt : List Bytes)
    (active : branches.all id = true) :
    e.keysChecked (keys.map (Script.pushKey context) ++ next) ⟨⟨main, alt⟩, branches⟩ = e.keysChecked next
      ⟨⟨(keys.map (PublicKey.pushed context.scheme)).reverse ++ main, alt⟩, branches⟩ := by
  induction keys generalizing main with
  | nil => rfl
  | cons key rest ih =>
    rw [List.map_cons, List.cons_append, keysChecked_cons rfl, Script.pushKey, step_push, whereRunning,
      if_pos active]
    refine (ih (PublicKey.pushed context.scheme key :: main)).trans ?_
    simp

private theorem keysChecked_ofNumber (number : Nat) (next : Script) (main alt : List Bytes)
    (active : branches.all id = true) :
    e.keysChecked (.ofNumber number :: next) ⟨⟨main, alt⟩, branches⟩ =
      e.keysChecked next ⟨⟨Bytes.writeNumber number :: main, alt⟩, branches⟩ := by
  rw [keysChecked_cons (Instruction.checksMany_ofNumber number), step_ofNumber, whereRunning, if_pos active]
  rfl

/-- A `multi` takes all its keys, whatever the answer. -/
theorem keysChecked_multi (ks : Threshold κ multiCap) (store : Stacks) (active : branches.all id = true) :
    e.keysChecked (Script.ofLeaf context (.multi ks : Leaf κ Digest)) ⟨store, branches⟩ =
      ks.items.length := by
  obtain ⟨main, alt⟩ := store
  rw [Script.ofLeaf, List.cons_append, keysChecked_ofNumber _ _ _ _ active,
    keysChecked_pushKeys _ _ _ _ active, keysChecked_ofNumber _ _ _ _ active, keysChecked_singleton,
    keysTaken, active, takeCounted?_keys]
  simp [Instruction.checksMany]

private theorem checksMany_checkSigChain (keys : List κ) :
    ∀ instruction ∈ Script.checkSigChain context keys, instruction.checksMany = false := by
  have check (key : κ) (opcode : Opcode) (single : (Instruction.op opcode).checksMany = false) :
      ∀ instruction ∈ [Script.pushKey context key, .op opcode], instruction.checksMany = false :=
    List.forall_mem_cons.mpr ⟨rfl, List.forall_mem_singleton.mpr single⟩
  cases keys with
  | nil => exact List.forall_mem_nil _
  | cons first rest =>
    refine List.forall_mem_append.mpr ⟨check first .checkSig rfl, fun instruction member => ?_⟩
    obtain ⟨key, _, among⟩ := List.mem_flatMap.mp member
    exact check key .checkSigAdd rfl instruction among

/-- No other leaf takes several keys. -/
theorem checksMany_ofLeaf {l : Leaf κ Digest} (other : ∀ ks, l ≠ .multi ks) :
    ∀ instruction ∈ Script.ofLeaf context l, instruction.checksMany = false := by
  have number := Instruction.checksMany_ofNumber
  cases l with
  | one | zero => exact List.forall_mem_singleton.mpr (number _)
  | key k => exact List.forall_mem_singleton.mpr rfl
  | after lock | older lock => exact List.forall_mem_cons.mpr ⟨number _, List.forall_mem_singleton.mpr rfl⟩
  | keyHash k =>
    simp only [Script.ofLeaf, List.forall_mem_cons]
    exact ⟨rfl, rfl, rfl, rfl, List.forall_mem_nil _⟩
  | digest d =>
    have hashes : (Instruction.op (Script.hashOpcode d.kind)).checksMany = false := by cases d.kind <;> rfl
    simp only [Script.ofLeaf, List.forall_mem_cons]
    exact ⟨rfl, number 32, rfl, hashes, rfl, rfl, List.forall_mem_nil _⟩
  | multi ks => exact absurd rfl (other ks)
  | multiA ks =>
    refine List.forall_mem_append.mpr ⟨checksMany_checkSigChain ks.items, ?_⟩
    exact List.forall_mem_cons.mpr ⟨number ks.k, List.forall_mem_singleton.mpr rfl⟩

end Leaf

end Evaluator

end LockScript
