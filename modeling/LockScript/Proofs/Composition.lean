import LockScript.Proofs.Answers

/-! # Scripts answer as their conditions do

The script of a condition of base `B` takes from the stack what some answer of the condition takes,
and leaves that answer; and every answer of the condition is one that its script gives. The other
base types do the same in their own way: a `V` leaves nothing and only goes on with a yes, a `W` works
below the top element, and a `K` answers once its signature is checked.

Both directions are proved fragment by fragment, for any children whose scripts answer as they should.
-/

namespace LockScript

namespace Evaluator

variable (e : Evaluator)

theorem balanced_flatMap {α : Type} {f : α → Script} {items : List α}
    (balanced : ∀ x ∈ items, e.Balanced (f x)) : e.Balanced (items.flatMap f) := by
  induction items with
  | nil => exact e.balanced_nil
  | cons x rest ih =>
    obtain ⟨first, others⟩ := List.forall_mem_cons.mp balanced
    exact first.append (ih others)

variable {κ : Type} [PublicKey κ] (context : Context)

theorem balanced_pushKey (key : κ) : e.Balanced [Script.pushKey context key] :=
  e.balanced_push _

theorem balanced_checkSigChain (keys : List κ) : e.Balanced (Script.checkSigChain context keys) := by
  have checked (key : κ) (opcode : Opcode) (plain : opcode.isPlain = true) :
      e.Balanced [Script.pushKey context key, .op opcode] :=
    (e.balanced_pushKey context key).append (e.balanced_op opcode plain)
  cases keys with
  | nil => exact e.balanced_nil
  | cons first rest =>
    exact (checked first .checkSig rfl).append
      (e.balanced_flatMap fun key _ => checked key .checkSigAdd rfl)

theorem balanced_ofLeaf (l : Leaf κ Digest) : e.Balanced (Script.ofLeaf context l) := by
  cases l with
  | one => exact e.balanced_ofNumber 1
  | zero => exact e.balanced_ofNumber 0
  | key k => exact e.balanced_pushKey context k
  | keyHash k =>
    exact (e.balanced_op .dup rfl).append <|
      (e.balanced_op .hash160 rfl).append <| (e.balanced_push _).append <|
        e.balanced_op .equalVerify rfl
  | after lock =>
    exact (e.balanced_ofNumber _).append (e.balanced_op .checkLockTimeVerify rfl)
  | older lock =>
    exact (e.balanced_ofNumber _).append (e.balanced_op .checkSequenceVerify rfl)
  | digest d =>
    have hash : (Script.hashOpcode d.kind).isPlain = true := by cases d.kind <;> rfl
    exact (e.balanced_op .size rfl).append <| (e.balanced_ofNumber 32).append <|
      (e.balanced_op .equalVerify rfl).append <| (e.balanced_op _ hash).append <|
        (e.balanced_push _).append <| e.balanced_op .equal rfl
  | multi ks =>
    have pushes : e.Balanced (ks.items.map (Script.pushKey context)) := by
      rw [List.map_eq_flatMap]
      exact e.balanced_flatMap fun key _ => e.balanced_pushKey context key
    exact ((e.balanced_ofNumber _).append pushes).append <|
      (e.balanced_ofNumber _).append (e.balanced_op .checkMultiSig rfl)
  | multiA ks =>
    exact (e.balanced_checkSigChain context ks.items).append <|
      (e.balanced_ofNumber _).append (e.balanced_op .numEqual rfl)

theorem balanced_script {α : Type} (t : Condition κ Digest α) : e.Balanced (t.script context) := by
  induction t using Condition.induct with
  | leaf note l =>
    rw [Condition.script_leaf]
    exact e.balanced_ofLeaf context l
  | wrap note w x ih =>
    rw [Condition.script_wrap]
    cases w with
    | alt => exact ((e.balanced_op .toAltStack rfl).append ih).append (e.balanced_op .fromAltStack rfl)
    | swap => exact (e.balanced_op .swap rfl).append ih
    | check => exact ih.append (e.balanced_op .checkSig rfl)
    | dupIf => exact (e.balanced_op .dup rfl).append (ih.conditional true).1
    | verify => exact ih.of_verified.1
    | nonzero =>
      exact (e.balanced_op .size rfl).append <| (e.balanced_op .zeroNotEqual rfl).append <|
        (ih.conditional true).1
    | zeroNotEqual => exact ih.append (e.balanced_op .zeroNotEqual rfl)
  | pair note op x y ihX ihY =>
    rw [Condition.script_pair]
    cases op with
    | andV => exact ihX.append ihY
    | andB => exact (ihX.append ihY).append (e.balanced_op .boolAnd rfl)
    | orB => exact (ihX.append ihY).append (e.balanced_op .boolOr rfl)
    | orD =>
      have decided := ihX.append ((e.balanced_op .ifDup rfl).append (ihY.conditional false).1)
      simpa [Script.pair, opening] using decided
    | orC =>
      have decided := ihX.append (ihY.conditional false).1
      simpa [Script.pair, opening] using decided
    | orI => exact (ihX.alternative ihY true).1
  | andOr note x y z ihX ihY ihZ =>
    have decided := ihX.append (ihZ.alternative ihY false).1
    rw [Condition.script_andOr]
    simpa [Script.andOr, opening] using decided
  | thresh note k items ih =>
    rw [Condition.script_thresh]
    cases items with
    | nil => exact (e.balanced_ofNumber k).append (e.balanced_op .equal rfl)
    | cons first rest =>
      obtain ⟨head, others⟩ := List.forall_mem_cons.mp ih
      have adds : e.Balanced ((rest.map (Condition.script context)).flatMap fun x => x ++ [.op .add]) := by
        rw [List.flatMap_map]
        exact e.balanced_flatMap fun x member => (others x member).append (e.balanced_op .add rfl)
      exact (head.append adds).append ((e.balanced_ofNumber k).append (e.balanced_op .equal rfl))

end Evaluator

/-- The element that stands for an answer is a number, which is zero for no. Only locks leave a yes
that is not 1. -/
def Denotes (unit answer : Bool) (result : Bytes) : Prop :=
  ∃ number : Nat, result = Bytes.writeNumber number ∧ number ≤ 2 ^ 31 ∧
    answer = decide (number ≠ 0) ∧ (unit = true → number ≤ 1)

namespace Denotes

variable {unit answer : Bool} {result : Bytes}

theorem writeBool (unit answer : Bool) : Denotes unit answer (Bytes.writeBool answer) := by
  refine ⟨answer.toNat, Bytes.writeBool_eq answer, ?_, ?_, fun _ => Bool.toNat_le answer⟩
  · exact Nat.le_trans (Bool.toNat_le answer) (by decide)
  · cases answer <;> rfl

theorem isTrue_eq (denotes : Denotes unit answer result) : result.isTrue = answer := by
  obtain ⟨number, rfl, _, rfl, _⟩ := denotes
  exact Bytes.isTrue_writeNumber number

/-- Every answer can be read as a number, which is zero for no. -/
theorem readNumber_eq (denotes : Denotes unit answer result) :
    ∃ number : Int, result.readNumber = some number ∧ (number != 0) = answer := by
  obtain ⟨number, rfl, bounded, rfl, _⟩ := denotes
  refine ⟨number, ?_, ?_⟩
  · rw [Bytes.readNumber_writeNumber, if_pos (by omega)]
  · cases number <;> rfl

/-- Answers of unit type are truth values. -/
theorem eq_writeBool (denotes : Denotes true answer result) : result = Bytes.writeBool answer := by
  obtain ⟨number, rfl, _, rfl, one⟩ := denotes
  rw [Bytes.writeBool_eq]
  obtain rfl | rfl : number = 0 ∨ number = 1 := Nat.le_one_iff_eq_zero_or_eq_one.mp (one rfl)
  · rfl
  · rfl

theorem mono {unit' : Bool} (denotes : Denotes unit answer result)
    (imp : unit' = true → unit = true) : Denotes unit' answer result := by
  obtain ⟨number, shape, bounded, same, one⟩ := denotes
  exact ⟨number, shape, bounded, same, fun unit => one (imp unit)⟩

end Denotes

namespace Evaluator

variable (e : Evaluator)

/-- A script that answers with an element in the place of those that it takes. -/
structure AnswersB (rel : AnswerRel) (unit : Bool) (script : Script) : Prop where
  sound : ∀ {main alt out}, e.exec script ⟨main, alt⟩ = some out → ∃ answer taken rest result,
    main = taken ++ rest ∧ rel answer taken ∧ Denotes unit answer result ∧ out = ⟨result :: rest, alt⟩
  complete : ∀ {answer taken} rest alt, rel answer taken → ∃ result,
    Denotes unit answer result ∧ e.exec script ⟨taken ++ rest, alt⟩ = some ⟨result :: rest, alt⟩

/-- A script that goes on with a yes and leaves nothing. -/
structure AnswersV (rel : AnswerRel) (script : Script) : Prop where
  sound : ∀ {main alt out}, e.exec script ⟨main, alt⟩ = some out → ∃ taken rest,
    main = taken ++ rest ∧ rel true taken ∧ out = ⟨rest, alt⟩
  complete : ∀ {taken} rest alt, rel true taken →
    e.exec script ⟨taken ++ rest, alt⟩ = some ⟨rest, alt⟩

/-- A script that works below the top element and leaves its answer above or below that. -/
structure AnswersW (rel : AnswerRel) (unit : Bool) (script : Script) : Prop where
  sound : ∀ {main alt out}, e.exec script ⟨main, alt⟩ = some out → ∃ top answer taken rest result,
    main = top :: (taken ++ rest) ∧ rel answer taken ∧ Denotes unit answer result ∧
      (out = ⟨top :: result :: rest, alt⟩ ∨ out = ⟨result :: top :: rest, alt⟩)
  complete : ∀ {answer taken} top rest alt, rel answer taken → ∃ result, Denotes unit answer result ∧
    (e.exec script ⟨top :: (taken ++ rest), alt⟩ = some ⟨top :: result :: rest, alt⟩ ∨
      e.exec script ⟨top :: (taken ++ rest), alt⟩ = some ⟨result :: top :: rest, alt⟩)

/-- What the base type says about a script. That of a `K` answers with the check that follows it. -/
def Adequate (rel : AnswerRel) (base : Base) (unit : Bool) (script : Script) : Prop :=
  match base with
  | .B => e.AnswersB rel unit script
  | .K => e.AnswersB rel true (script ++ [.op .checkSig])
  | .V => e.AnswersV rel script
  | .W => e.AnswersW rel unit script

variable {e} {rel : AnswerRel} {unit regular : Bool} {script : Script}

theorem AnswersB.congr {rel' : AnswerRel} (x : e.AnswersB rel unit script)
    (same : ∀ answer taken, rel answer taken ↔ rel' answer taken) : e.AnswersB rel' unit script := by
  obtain rfl : rel = rel' := funext fun answer => funext fun taken => propext (same answer taken)
  exact x

/-- A `B` fits where a script goes on, with nothing to follow. -/
theorem answersB_append_nil : e.AnswersB rel unit (script ++ []) ↔ e.AnswersB rel unit script := by
  rw [List.append_nil]

theorem AnswersB.verify (x : e.AnswersB rel unit script) (balanced : e.Balanced script) :
    e.AnswersV (AnswerRel.wrap regular .verify rel) script.verified where
  sound := by
    intro main alt out ran
    rw [balanced.of_verified.2, Option.bind_eq_some_iff] at ran
    obtain ⟨middle, ran, verified⟩ := ran
    obtain ⟨answer, taken, rest, result, rfl, run, denotes, rfl⟩ := x.sound ran
    cases answer with
    | false => simp [execute?, onMain?, unary, denotes.isTrue_eq] at verified
    | true =>
      refine ⟨taken, rest, rfl, ⟨rfl, run⟩, ?_⟩
      simpa [execute?, onMain?, unary, denotes.isTrue_eq, eq_comm] using verified
  complete := by
    intro taken rest alt run
    obtain ⟨result, denotes, ran⟩ := x.complete rest alt run.2
    rw [balanced.of_verified.2, ran]
    simp [execute?, onMain?, unary, denotes.isTrue_eq]

theorem AnswersB.alt (x : e.AnswersB rel unit script) (balanced : e.Balanced script) :
    e.AnswersW (AnswerRel.wrap regular .alt rel) unit (Script.wrap .alt script) where
  sound := by
    intro main alt out ran
    rw [Script.wrap, List.cons_append, ← List.singleton_append,
      (e.balanced_op .toAltStack rfl).exec_append_eq_some] at ran
    obtain ⟨middle, moved, ran⟩ := ran
    rw [exec_op rfl] at moved
    cases main with
    | nil => cases moved
    | cons top main =>
      cases moved
      obtain ⟨middle, ran, returned⟩ := balanced.exec_append_eq_some.mp ran
      obtain ⟨answer, taken, rest, result, rfl, run, denotes, rfl⟩ := x.sound ran
      rw [exec_op rfl] at returned
      cases returned
      exact ⟨top, answer, taken, rest, result, rfl, run, denotes, .inl rfl⟩
  complete := by
    intro answer taken top rest alt run
    obtain ⟨result, denotes, ran⟩ := x.complete rest (top :: alt) run
    refine ⟨result, denotes, .inl ?_⟩
    rw [Script.wrap, List.cons_append, ← List.singleton_append,
      (e.balanced_op .toAltStack rfl).exec_append, exec_op rfl, execute?, Option.bind_some,
      balanced.exec_append, ran, Option.bind_some, exec_op rfl]
    rfl

theorem AnswersB.swap (x : e.AnswersB rel unit script)
    (one : ∀ {answer taken}, rel answer taken → taken.length = 1) :
    e.AnswersW (AnswerRel.wrap regular .swap rel) unit (Script.wrap .swap script) where
  sound := by
    intro main alt out ran
    rw [Script.wrap, ← List.singleton_append,
      (e.balanced_op .swap rfl).exec_append_eq_some] at ran
    obtain ⟨middle, moved, ran⟩ := ran
    rw [exec_op rfl] at moved
    obtain _ | ⟨top, _ | ⟨below, main⟩⟩ := main
    · cases moved
    · cases moved
    · cases moved
      obtain ⟨answer, taken, rest, result, split, run, denotes, rfl⟩ := x.sound ran
      obtain ⟨a, rfl⟩ := List.length_eq_one_iff.mp (one run)
      cases split
      exact ⟨top, answer, [below], main, result, rfl, run, denotes, .inr rfl⟩
  complete := by
    intro answer taken top rest alt run
    obtain ⟨a, rfl⟩ := List.length_eq_one_iff.mp (one run)
    obtain ⟨result, denotes, ran⟩ := x.complete (top :: rest) alt run
    refine ⟨result, denotes, .inr ?_⟩
    rw [Script.wrap, ← List.singleton_append, (e.balanced_op .swap rfl).exec_append, exec_op rfl]
    exact ran

theorem wrap_dupIf (script : Script) : Script.wrap .dupIf script =
    [.op .dup] ++ ([opening true] ++ script ++ [.op .endIf]) :=
  rfl

theorem wrap_nonzero (script : Script) : Script.wrap .nonzero script =
    [.op .size] ++ ([.op .zeroNotEqual] ++ ([opening true] ++ script ++ [.op .endIf])) :=
  rfl

theorem AnswersV.dupIf (x : e.AnswersV rel script) (balanced : e.Balanced script)
    (none : ∀ {answer taken}, rel answer taken → taken = []) :
    e.AnswersB (AnswerRel.wrap regular .dupIf rel) true (Script.wrap .dupIf script) where
  sound := by
    intro main alt out ran
    rw [wrap_dupIf, (e.balanced_op .dup rfl).exec_append_eq_some] at ran
    obtain ⟨middle, moved, ran⟩ := ran
    rw [exec_op rfl] at moved
    cases main with
    | nil => cases moved
    | cons top main =>
      cases moved
      obtain ⟨value, rest, split, ran⟩ := (balanced.exec_conditional true).mp ran
      cases split
      cases value with
      | false =>
        cases ran
        exact ⟨false, [[]], main, [], rfl, .inl ⟨rfl, rfl⟩, .writeBool true false, rfl⟩
      | true =>
        obtain ⟨taken, rest, split, run, rfl⟩ := x.sound ran
        obtain rfl := none run
        cases split
        exact ⟨true, [[1]], main, [1], rfl, .inr ⟨rfl, rfl, run⟩, .writeBool true true, rfl⟩
  complete := by
    intro answer taken rest alt run
    refine ⟨Bytes.writeBool answer, .writeBool true answer, ?_⟩
    rw [wrap_dupIf, (e.balanced_op .dup rfl).exec_append_eq_some]
    obtain ⟨rfl, rfl⟩ | ⟨rfl, rfl, run⟩ := run
    · refine ⟨⟨[] :: [] :: rest, alt⟩, exec_op rfl _, ?_⟩
      exact (balanced.exec_conditional true).mpr ⟨false, [] :: rest, rfl, rfl⟩
    · refine ⟨⟨[1] :: [1] :: rest, alt⟩, exec_op rfl _, ?_⟩
      exact (balanced.exec_conditional true).mpr
        ⟨true, [1] :: rest, rfl, x.complete ([1] :: rest) alt run⟩

theorem execute?_zeroNotEqual (a : Bytes) (rest alt : List Bytes) :
    e.execute? .zeroNotEqual ⟨a :: rest, alt⟩ =
      a.readNumber.map fun number => ⟨Bytes.writeBool (number != 0) :: rest, alt⟩ := by
  simp only [execute?, onMain?, unary]
  cases a.readNumber <;> rfl

/-- The size of an element is readable unless it is absurdly long, and zero if the element is empty. -/
theorem exec_sizeTest (top : Bytes) (rest alt : List Bytes) (next : Script) {out : Stacks} :
    e.exec ([.op .size] ++ ([.op .zeroNotEqual] ++ next)) ⟨top :: rest, alt⟩ = some out ↔
      top.length < 2 ^ 39 ∧
        e.exec next ⟨Bytes.writeBool (top != []) :: top :: rest, alt⟩ = some out := by
  rw [(e.balanced_op .size rfl).exec_append, exec_op rfl]
  change e.exec _ ⟨Bytes.writeNumber (top.length : Nat) :: top :: rest, alt⟩ = some out ↔ _
  rw [(e.balanced_op .zeroNotEqual rfl).exec_append, exec_op rfl, execute?_zeroNotEqual,
    Bytes.readNumber_writeNumber]
  have empty : (((top.length : Nat) : Int) != 0) = (top != []) := by
    cases top <;> rfl
  by_cases short : top.length < 2 ^ 39
  · rw [if_pos short, Option.map_some, Option.bind_some, empty]
    exact (and_iff_right short).symm
  · rw [if_neg short]
    exact iff_of_false nofun fun both => short both.1

/-- The script of a `j:` looks at the size of the top element before it runs the child. -/
theorem AnswersB.nonzero (x : e.AnswersB rel unit script) (balanced : e.Balanced script)
    (some : ∀ {answer taken}, rel answer taken → taken ≠ []) :
    e.AnswersB (AnswerRel.wrap false .nonzero rel) unit (Script.wrap .nonzero script) where
  sound := by
    intro main alt out ran
    rw [wrap_nonzero] at ran
    cases main with
    | nil =>
      rw [(e.balanced_op .size rfl).exec_append, exec_op rfl] at ran
      cases ran
    | cons top main =>
      obtain ⟨short, ran⟩ := (exec_sizeTest top main alt _).mp ran
      obtain ⟨value, rest, split, ran⟩ := (balanced.exec_conditional true).mp ran
      obtain ⟨same, rfl⟩ := List.cons.inj split
      obtain rfl := Bytes.writeBool_inj.mp same
      by_cases empty : top = []
      · subst empty
        cases ran
        exact ⟨false, [[]], main, [], rfl, .inl ⟨rfl, rfl⟩, .writeBool unit false, rfl⟩
      · rw [if_pos (bne_iff_ne.mpr empty)] at ran
        obtain ⟨answer, taken, rest, result, split, run, denotes, rfl⟩ := x.sound ran
        obtain ⟨first, others, rfl⟩ := List.exists_cons_of_ne_nil (some run)
        obtain ⟨rfl, rfl⟩ := List.cons.inj split
        exact ⟨answer, top :: others, rest, result, rfl,
          .inr ⟨top, others, rfl, empty, short, run, of_false_eq_true⟩, denotes, rfl⟩
  complete := by
    intro answer taken rest alt run
    rw [wrap_nonzero]
    obtain ⟨rfl, rfl⟩ | ⟨top, below, rfl, nonempty, short, run, _⟩ := run
    · refine ⟨[], .writeBool unit false, (exec_sizeTest _ _ _ _).mpr ⟨by decide, ?_⟩⟩
      exact (balanced.exec_conditional true).mpr ⟨false, [] :: rest, rfl, rfl⟩
    · obtain ⟨result, denotes, ran⟩ := x.complete rest alt run
      refine ⟨result, denotes, (exec_sizeTest _ _ _ _).mpr ⟨short, ?_⟩⟩
      exact (balanced.exec_conditional true).mpr
        ⟨true, top :: below ++ rest, by rw [bne_iff_ne.mpr nonempty]; rfl, ran⟩

theorem AnswersB.zeroNotEqual (x : e.AnswersB rel unit script) (balanced : e.Balanced script) :
    e.AnswersB (AnswerRel.wrap false .zeroNotEqual rel) true (Script.wrap .zeroNotEqual script) where
  sound := by
    intro main alt out ran
    obtain ⟨middle, ran, compared⟩ := balanced.exec_append_eq_some.mp ran
    obtain ⟨answer, taken, rest, result, rfl, run, denotes, rfl⟩ := x.sound ran
    obtain ⟨number, read, same⟩ := denotes.readNumber_eq
    rw [exec_op rfl, execute?_zeroNotEqual, read] at compared
    cases compared
    exact ⟨answer, taken, rest, _, rfl, run, same ▸ .writeBool true _, rfl⟩
  complete := by
    intro answer taken rest alt run
    obtain ⟨result, denotes, ran⟩ := x.complete rest alt run
    obtain ⟨number, read, same⟩ := denotes.readNumber_eq
    refine ⟨Bytes.writeBool answer, .writeBool true answer, ?_⟩
    rw [Script.wrap, balanced.exec_append, ran, Option.bind_some, exec_op rfl,
      execute?_zeroNotEqual, read, ← same]
    rfl

variable {relX relY relZ : AnswerRel} {unitX unitY unitZ : Bool} {sx sy sz next : Script}

theorem AnswersV.andV (x : e.AnswersV relX sx) (balanced : e.Balanced sx)
    (y : e.AnswersB relY unitY (sy ++ next)) :
    e.AnswersB (AnswerRel.pair false .andV relX relY) unitY (Script.pair .andV sx sy ++ next) where
  sound := by
    intro main alt out ran
    rw [Script.pair, List.append_assoc, balanced.exec_append_eq_some] at ran
    obtain ⟨middle, first, second⟩ := ran
    obtain ⟨upper, rest, rfl, runX, rfl⟩ := x.sound first
    obtain ⟨answer, lower, rest, result, rfl, runY, denotes, rfl⟩ := y.sound second
    exact ⟨answer, upper ++ lower, rest, result, (List.append_assoc ..).symm,
      ⟨⟨upper, lower, rfl, runX, runY⟩, of_false_eq_true⟩, denotes, rfl⟩
  complete := by
    rintro answer taken rest alt ⟨⟨upper, lower, rfl, runX, runY⟩, _⟩
    obtain ⟨result, denotes, ran⟩ := y.complete rest alt runY
    refine ⟨result, denotes, ?_⟩
    rw [Script.pair, List.append_assoc, balanced.exec_append, List.append_assoc,
      x.complete (lower ++ rest) alt runX]
    exact ran

theorem AnswersV.andV_verify (x : e.AnswersV relX sx) (balanced : e.Balanced sx)
    (y : e.AnswersV relY sy) :
    e.AnswersV (AnswerRel.pair false .andV relX relY) (Script.pair .andV sx sy) where
  sound := by
    intro main alt out ran
    obtain ⟨middle, first, second⟩ := balanced.exec_append_eq_some.mp ran
    obtain ⟨upper, rest, rfl, runX, rfl⟩ := x.sound first
    obtain ⟨lower, rest, rfl, runY, rfl⟩ := y.sound second
    exact ⟨upper ++ lower, rest, (List.append_assoc ..).symm,
      ⟨⟨upper, lower, rfl, runX, runY⟩, of_false_eq_true⟩, rfl⟩
  complete := by
    rintro taken rest alt ⟨⟨upper, lower, rfl, runX, runY⟩, _⟩
    rw [Script.pair, balanced.exec_append, List.append_assoc,
      x.complete (lower ++ rest) alt runX]
    exact y.complete rest alt runY

/-- Two children that both run, the second below the answer of the first, and an opcode that joins
their answers in either order. -/
theorem AnswersB.join (x : e.AnswersB relX unitX sx) (balancedX : e.Balanced sx)
    (y : e.AnswersW relY unitY sy) (balancedY : e.Balanced sy) (opcode : Opcode)
    (plain : opcode.isPlain = true) (combine : Bool → Bool → Bool)
    (symmetric : ∀ a b, combine a b = combine b a)
    (computes : ∀ {a b : Bytes} {m n : Int} (rest alt : List Bytes), a.readNumber = some m →
      b.readNumber = some n → e.execute? opcode ⟨a :: b :: rest, alt⟩ =
        some ⟨Bytes.writeBool (combine (m != 0) (n != 0)) :: rest, alt⟩) :
    e.AnswersB (fun answer taken => ∃ first second, AnswerRel.Both relX relY first second taken ∧
      answer = combine first second) true (sx ++ sy ++ [.op opcode]) where
  sound := by
    intro main alt out ran
    obtain ⟨middle, ran, joined⟩ := (balancedX.append balancedY).exec_append_eq_some.mp ran
    obtain ⟨middle, first, second⟩ := balancedX.exec_append_eq_some.mp ran
    obtain ⟨answerX, upper, rest, resultX, rfl, runX, denotesX, rfl⟩ := x.sound first
    obtain ⟨top, answerY, lower, rest, resultY, split, runY, denotesY, left⟩ := y.sound second
    obtain ⟨rfl, rfl⟩ := List.cons.inj split
    obtain ⟨m, readX, rfl⟩ := denotesX.readNumber_eq
    obtain ⟨n, readY, rfl⟩ := denotesY.readNumber_eq
    refine ⟨combine (m != 0) (n != 0), upper ++ lower, rest, _, (List.append_assoc ..).symm,
      ⟨_, _, ⟨upper, lower, rfl, runX, runY⟩, rfl⟩, .writeBool true _, ?_⟩
    rw [exec_op plain] at joined
    obtain rfl | rfl := left
    · rw [computes rest alt readX readY] at joined
      exact (Option.some.inj joined).symm
    · rw [computes rest alt readY readX, symmetric] at joined
      exact (Option.some.inj joined).symm
  complete := by
    rintro answer taken rest alt ⟨first, second, ⟨upper, lower, rfl, runX, runY⟩, rfl⟩
    obtain ⟨resultX, denotesX, ranX⟩ := x.complete (lower ++ rest) alt runX
    obtain ⟨resultY, denotesY, ranY⟩ := y.complete resultX rest alt runY
    obtain ⟨m, readX, rfl⟩ := denotesX.readNumber_eq
    obtain ⟨n, readY, rfl⟩ := denotesY.readNumber_eq
    refine ⟨_, .writeBool true _, ?_⟩
    rw [(balancedX.append balancedY).exec_append, balancedX.exec_append, List.append_assoc, ranX,
      Option.bind_some]
    obtain ranY | ranY := ranY
    · rw [ranY, Option.bind_some, exec_op plain, computes rest alt readX readY]
    · rw [ranY, Option.bind_some, exec_op plain, computes rest alt readY readX, symmetric]

theorem AnswersB.andB (x : e.AnswersB relX unitX sx) (balancedX : e.Balanced sx)
    (y : e.AnswersW relY unitY sy) (balancedY : e.Balanced sy) :
    e.AnswersB (AnswerRel.pair false .andB relX relY) true (Script.pair .andB sx sy) := by
  have joined := x.join balancedX y balancedY .boolAnd rfl (· && ·)
    Bool.and_comm fun {a b m n} rest alt readX readY => by
      simp [execute?, onMain?, binary, readX, readY]
  refine joined.congr fun answer taken => ?_
  simp only [AnswerRel.pair, Bool.false_eq_true, false_imp_iff, and_true]

theorem AnswersB.orB (x : e.AnswersB relX unitX sx) (balancedX : e.Balanced sx)
    (y : e.AnswersW relY unitY sy) (balancedY : e.Balanced sy) :
    e.AnswersB (AnswerRel.pair false .orB relX relY) true (Script.pair .orB sx sy) := by
  have joined := x.join balancedX y balancedY .boolOr rfl (· || ·)
    Bool.or_comm fun {a b m n} rest alt readX readY => by
      simp [execute?, onMain?, binary, readX, readY]
  refine joined.congr fun answer taken => ?_
  simp only [AnswerRel.pair, Bool.false_eq_true, false_imp_iff, and_true]

theorem pair_orD (sx sy : Script) : Script.pair .orD sx sy =
    sx ++ ([.op .ifDup] ++ ([opening false] ++ sy ++ [.op .endIf])) := by
  simp [Script.pair, opening]

theorem pair_orC (sx sy : Script) : Script.pair .orC sx sy =
    sx ++ ([opening false] ++ sy ++ [.op .endIf]) := by
  simp [Script.pair, opening]

theorem exec_ifDup (answer : Bool) (rest alt : List Bytes) :
    e.exec [.op .ifDup] ⟨Bytes.writeBool answer :: rest, alt⟩ =
      some ⟨Bytes.writeBool answer :: (if answer then [1] :: rest else rest), alt⟩ := by
  rw [exec_op rfl]
  cases answer <;> rfl

theorem AnswersB.orD (x : e.AnswersB relX true sx) (balancedX : e.Balanced sx)
    (y : e.AnswersB relY unitY sy) (balancedY : e.Balanced sy) :
    e.AnswersB (AnswerRel.pair false .orD relX relY) unitY (Script.pair .orD sx sy) where
  sound := by
    intro main alt out ran
    rw [pair_orD] at ran
    obtain ⟨middle, first, ran⟩ := balancedX.exec_append_eq_some.mp ran
    obtain ⟨answer, upper, rest, result, rfl, runX, denotes, rfl⟩ := x.sound first
    obtain rfl := denotes.eq_writeBool
    rw [(e.balanced_op .ifDup rfl).exec_append, exec_ifDup] at ran
    obtain ⟨value, below, split, ran⟩ := (balancedY.exec_conditional false).mp ran
    obtain ⟨same, rfl⟩ := List.cons.inj split
    obtain rfl := Bytes.writeBool_inj.mp same
    cases answer with
    | true =>
      cases ran
      exact ⟨true, upper, rest, [1], rfl, .inl ⟨rfl, runX⟩, .writeBool unitY true, rfl⟩
    | false =>
      obtain ⟨answer, lower, rest, result, split, runY, denotes, rfl⟩ := y.sound ran
      cases split
      exact ⟨answer, upper ++ lower, rest, result, (List.append_assoc ..).symm,
        .inr ⟨upper, lower, rfl, runX, runY⟩, denotes, rfl⟩
  complete := by
    rintro answer taken rest alt (⟨rfl, runX⟩ | ⟨upper, lower, rfl, runX, runY⟩)
    · obtain ⟨result, denotes, ran⟩ := x.complete rest alt runX
      obtain rfl := denotes.eq_writeBool
      refine ⟨[1], .writeBool unitY true, ?_⟩
      rw [pair_orD, balancedX.exec_append, ran, Option.bind_some,
        (e.balanced_op .ifDup rfl).exec_append, exec_ifDup, Option.bind_some]
      exact (balancedY.exec_conditional false).mpr ⟨true, _, rfl, rfl⟩
    · obtain ⟨result, denotes, ran⟩ := x.complete (lower ++ rest) alt runX
      obtain rfl := denotes.eq_writeBool
      obtain ⟨result, denotes, ranY⟩ := y.complete rest alt runY
      refine ⟨result, denotes, ?_⟩
      rw [pair_orD, balancedX.exec_append, List.append_assoc, ran, Option.bind_some,
        (e.balanced_op .ifDup rfl).exec_append, exec_ifDup, Option.bind_some]
      exact (balancedY.exec_conditional false).mpr ⟨false, _, rfl, ranY⟩

theorem AnswersB.orC (x : e.AnswersB relX true sx) (balancedX : e.Balanced sx)
    (y : e.AnswersV relY sy) (balancedY : e.Balanced sy) :
    e.AnswersV (AnswerRel.pair false .orC relX relY) (Script.pair .orC sx sy) where
  sound := by
    intro main alt out ran
    rw [pair_orC] at ran
    obtain ⟨middle, first, ran⟩ := balancedX.exec_append_eq_some.mp ran
    obtain ⟨answer, upper, rest, result, rfl, runX, denotes, rfl⟩ := x.sound first
    obtain rfl := denotes.eq_writeBool
    obtain ⟨value, below, split, ran⟩ := (balancedY.exec_conditional false).mp ran
    obtain ⟨same, rfl⟩ := List.cons.inj split
    obtain rfl := Bytes.writeBool_inj.mp same
    cases answer with
    | true =>
      cases ran
      exact ⟨upper, rest, rfl, .inl ⟨rfl, runX⟩, rfl⟩
    | false =>
      obtain ⟨lower, rest, rfl, runY, rfl⟩ := y.sound ran
      exact ⟨upper ++ lower, rest, (List.append_assoc ..).symm,
        .inr ⟨upper, lower, rfl, runX, runY⟩, rfl⟩
  complete := by
    rintro taken rest alt (⟨_, runX⟩ | ⟨upper, lower, rfl, runX, runY⟩)
    · obtain ⟨result, denotes, ran⟩ := x.complete rest alt runX
      obtain rfl := denotes.eq_writeBool
      rw [pair_orC, balancedX.exec_append, ran, Option.bind_some]
      exact (balancedY.exec_conditional false).mpr ⟨true, rest, rfl, rfl⟩
    · obtain ⟨result, denotes, ran⟩ := x.complete (lower ++ rest) alt runX
      obtain rfl := denotes.eq_writeBool
      rw [pair_orC, balancedX.exec_append, List.append_assoc, ran, Option.bind_some]
      exact (balancedY.exec_conditional false).mpr
        ⟨false, lower ++ rest, rfl, y.complete rest alt runY⟩

theorem AnswersB.orI (x : e.AnswersB relX unitX (sx ++ next)) (balancedX : e.Balanced sx)
    (y : e.AnswersB relY unitY (sy ++ next)) (balancedY : e.Balanced sy) :
    e.AnswersB (AnswerRel.pair false .orI relX relY) (unitX && unitY)
      (Script.pair .orI sx sy ++ next) where
  sound := by
    intro main alt out ran
    obtain ⟨value, below, rfl, chosen⟩ := (balancedX.exec_alternative balancedY true next).mp ran
    cases value with
    | true =>
      obtain ⟨answer, taken, rest, result, rfl, run, denotes, rfl⟩ := x.sound chosen
      exact ⟨answer, [1] :: taken, rest, result, rfl, ⟨taken, .inl ⟨rfl, run⟩⟩,
        denotes.mono fun both => (Bool.and_eq_true_iff.mp both).1, rfl⟩
    | false =>
      obtain ⟨answer, taken, rest, result, rfl, run, denotes, rfl⟩ := y.sound chosen
      exact ⟨answer, [] :: taken, rest, result, rfl, ⟨taken, .inr ⟨rfl, run⟩⟩,
        denotes.mono fun both => (Bool.and_eq_true_iff.mp both).2, rfl⟩
  complete := by
    rintro answer taken rest alt ⟨below, ⟨rfl, run⟩ | ⟨rfl, run⟩⟩
    · obtain ⟨result, denotes, ran⟩ := x.complete rest alt run
      exact ⟨result, denotes.mono fun both => (Bool.and_eq_true_iff.mp both).1,
        (balancedX.exec_alternative balancedY true next).mpr ⟨true, _, rfl, ran⟩⟩
    · obtain ⟨result, denotes, ran⟩ := y.complete rest alt run
      exact ⟨result, denotes.mono fun both => (Bool.and_eq_true_iff.mp both).2,
        (balancedX.exec_alternative balancedY true next).mpr ⟨false, _, rfl, ran⟩⟩

theorem AnswersV.orI (x : e.AnswersV relX sx) (balancedX : e.Balanced sx)
    (y : e.AnswersV relY sy) (balancedY : e.Balanced sy) :
    e.AnswersV (AnswerRel.pair false .orI relX relY) (Script.pair .orI sx sy) where
  sound := by
    intro main alt out ran
    rw [← List.append_nil (Script.pair .orI sx sy)] at ran
    obtain ⟨value, below, rfl, chosen⟩ := (balancedX.exec_alternative balancedY true []).mp ran
    rw [List.append_nil] at chosen
    cases value with
    | true =>
      obtain ⟨taken, rest, rfl, run, rfl⟩ := x.sound chosen
      exact ⟨[1] :: taken, rest, rfl, ⟨taken, .inl ⟨rfl, run⟩⟩, rfl⟩
    | false =>
      obtain ⟨taken, rest, rfl, run, rfl⟩ := y.sound chosen
      exact ⟨[] :: taken, rest, rfl, ⟨taken, .inr ⟨rfl, run⟩⟩, rfl⟩
  complete := by
    rintro taken rest alt ⟨below, ⟨rfl, run⟩ | ⟨rfl, run⟩⟩
    · rw [← List.append_nil (Script.pair .orI sx sy)]
      refine (balancedX.exec_alternative balancedY true []).mpr ⟨true, _, rfl, ?_⟩
      exact (List.append_nil sx).symm ▸ x.complete rest alt run
    · rw [← List.append_nil (Script.pair .orI sx sy)]
      refine (balancedX.exec_alternative balancedY true []).mpr ⟨false, _, rfl, ?_⟩
      exact (List.append_nil sy).symm ▸ y.complete rest alt run

theorem andOr_eq (sx sy sz : Script) : Script.andOr sx sy sz =
    sx ++ ([opening false] ++ sz ++ [.op .else] ++ sy ++ [.op .endIf]) := by
  simp [Script.andOr, opening]

theorem AnswersB.andOr (x : e.AnswersB relX true sx) (balancedX : e.Balanced sx)
    (y : e.AnswersB relY unitY (sy ++ next)) (balancedY : e.Balanced sy)
    (z : e.AnswersB relZ unitZ (sz ++ next)) (balancedZ : e.Balanced sz) :
    e.AnswersB (AnswerRel.andOr false relX relY relZ) (unitY && unitZ)
      (Script.andOr sx sy sz ++ next) where
  sound := by
    intro main alt out ran
    rw [andOr_eq, List.append_assoc] at ran
    obtain ⟨middle, first, ran⟩ := balancedX.exec_append_eq_some.mp ran
    obtain ⟨answer, upper, rest, result, rfl, runX, denotes, rfl⟩ := x.sound first
    obtain rfl := denotes.eq_writeBool
    obtain ⟨value, below, split, ran⟩ := (balancedZ.exec_alternative balancedY false next).mp ran
    obtain ⟨same, rfl⟩ := List.cons.inj split
    obtain rfl := Bytes.writeBool_inj.mp same
    cases answer with
    | true =>
      obtain ⟨answer, lower, rest, result, rfl, runY, denotes, rfl⟩ := y.sound ran
      exact ⟨answer, upper ++ lower, rest, result, (List.append_assoc ..).symm,
        .inl ⟨⟨upper, lower, rfl, runX, runY⟩, of_false_eq_true⟩,
        denotes.mono fun both => (Bool.and_eq_true_iff.mp both).1, rfl⟩
    | false =>
      obtain ⟨answer, lower, rest, result, rfl, runZ, denotes, rfl⟩ := z.sound ran
      exact ⟨answer, upper ++ lower, rest, result, (List.append_assoc ..).symm,
        .inr ⟨upper, lower, rfl, runX, runZ⟩,
        denotes.mono fun both => (Bool.and_eq_true_iff.mp both).2, rfl⟩
  complete := by
    rintro answer taken rest alt (⟨⟨upper, lower, rfl, runX, runY⟩, _⟩ | ⟨upper, lower, rfl, runX, runZ⟩)
    · obtain ⟨resultX, denotesX, ranX⟩ := x.complete (lower ++ rest) alt runX
      obtain rfl := denotesX.eq_writeBool
      obtain ⟨result, denotes, ran⟩ := y.complete rest alt runY
      refine ⟨result, denotes.mono fun both => (Bool.and_eq_true_iff.mp both).1, ?_⟩
      rw [andOr_eq, List.append_assoc, balancedX.exec_append, List.append_assoc, ranX,
        Option.bind_some]
      exact (balancedZ.exec_alternative balancedY false next).mpr ⟨true, _, rfl, ran⟩
    · obtain ⟨resultX, denotesX, ranX⟩ := x.complete (lower ++ rest) alt runX
      obtain rfl := denotesX.eq_writeBool
      obtain ⟨result, denotes, ran⟩ := z.complete rest alt runZ
      refine ⟨result, denotes.mono fun both => (Bool.and_eq_true_iff.mp both).2, ?_⟩
      rw [andOr_eq, List.append_assoc, balancedX.exec_append, List.append_assoc, ranX,
        Option.bind_some]
      exact (balancedZ.exec_alternative balancedY false next).mpr ⟨false, _, rfl, ran⟩

theorem AnswersV.andOr (x : e.AnswersB relX true sx) (balancedX : e.Balanced sx)
    (y : e.AnswersV relY sy) (balancedY : e.Balanced sy)
    (z : e.AnswersV relZ sz) (balancedZ : e.Balanced sz) :
    e.AnswersV (AnswerRel.andOr false relX relY relZ) (Script.andOr sx sy sz) where
  sound := by
    intro main alt out ran
    rw [andOr_eq, ← List.append_nil (_ ++ [Instruction.op Opcode.endIf])] at ran
    obtain ⟨middle, first, ran⟩ := balancedX.exec_append_eq_some.mp ran
    obtain ⟨answer, upper, rest, result, rfl, runX, denotes, rfl⟩ := x.sound first
    obtain rfl := denotes.eq_writeBool
    obtain ⟨value, below, split, ran⟩ := (balancedZ.exec_alternative balancedY false []).mp ran
    obtain ⟨same, rfl⟩ := List.cons.inj split
    obtain rfl := Bytes.writeBool_inj.mp same
    rw [List.append_nil] at ran
    cases answer with
    | true =>
      obtain ⟨lower, rest, rfl, runY, rfl⟩ := y.sound ran
      exact ⟨upper ++ lower, rest, (List.append_assoc ..).symm,
        .inl ⟨⟨upper, lower, rfl, runX, runY⟩, of_false_eq_true⟩, rfl⟩
    | false =>
      obtain ⟨lower, rest, rfl, runZ, rfl⟩ := z.sound ran
      exact ⟨upper ++ lower, rest, (List.append_assoc ..).symm,
        .inr ⟨upper, lower, rfl, runX, runZ⟩, rfl⟩
  complete := by
    rintro taken rest alt (⟨⟨upper, lower, rfl, runX, runY⟩, _⟩ | ⟨upper, lower, rfl, runX, runZ⟩)
    · obtain ⟨resultX, denotesX, ranX⟩ := x.complete (lower ++ rest) alt runX
      obtain rfl := denotesX.eq_writeBool
      rw [andOr_eq, ← List.append_nil (_ ++ [Instruction.op Opcode.endIf]), balancedX.exec_append,
        List.append_assoc, ranX, Option.bind_some]
      refine (balancedZ.exec_alternative balancedY false []).mpr ⟨true, _, rfl, ?_⟩
      exact (List.append_nil sy).symm ▸ y.complete rest alt runY
    · obtain ⟨resultX, denotesX, ranX⟩ := x.complete (lower ++ rest) alt runX
      obtain rfl := denotesX.eq_writeBool
      rw [andOr_eq, ← List.append_nil (_ ++ [Instruction.op Opcode.endIf]), balancedX.exec_append,
        List.append_assoc, ranX, Option.bind_some]
      refine (balancedZ.exec_alternative balancedY false []).mpr ⟨false, _, rfl, ?_⟩
      exact (List.append_nil sz).symm ▸ z.complete rest alt runZ

theorem execute?_add (m : Nat) (answer : Bool) (rest alt : List Bytes) :
    e.execute? .add ⟨Bytes.writeNumber m :: Bytes.writeBool answer :: rest, alt⟩ =
        (if m < 2 ^ 39 then some ⟨Bytes.writeNumber (m + answer.toNat : Nat) :: rest, alt⟩
          else none) ∧
      e.execute? .add ⟨Bytes.writeBool answer :: Bytes.writeNumber m :: rest, alt⟩ =
        (if m < 2 ^ 39 then some ⟨Bytes.writeNumber (m + answer.toNat : Nat) :: rest, alt⟩
          else none) := by
  have small : answer.toNat < 2 ^ 39 := Nat.lt_of_le_of_lt (Bool.toNat_le answer) (by decide)
  simp only [execute?, onMain?, binary, Bytes.writeBool_eq, Bytes.readNumber_writeNumber,
    if_pos small]
  by_cases readable : m < 2 ^ 39
  · simp only [if_pos readable]
    exact ⟨rfl, by simp [Int.add_comm]⟩
  · simp only [if_neg readable]
    exact ⟨rfl, rfl⟩

/-- A child of a threshold other than the first adds its answer to the sum on top of the stack, which
must be readable. -/
theorem AnswersW.exec_add (x : e.AnswersW relX true sx) (balanced : e.Balanced sx) {sum : Nat}
    {main alt : List Bytes} {out : Stacks} :
    e.exec (sx ++ [.op .add]) ⟨Bytes.writeNumber sum :: main, alt⟩ = some out ↔
      ∃ answer taken rest, main = taken ++ rest ∧ relX answer taken ∧ sum < 2 ^ 39 ∧
        out = ⟨Bytes.writeNumber (sum + answer.toNat : Nat) :: rest, alt⟩ := by
  rw [balanced.exec_append_eq_some]
  constructor
  · rintro ⟨middle, ran, added⟩
    obtain ⟨top, answer, taken, rest, result, split, run, denotes, left⟩ := x.sound ran
    obtain ⟨rfl, rfl⟩ := List.cons.inj split
    obtain rfl := denotes.eq_writeBool
    have sums := execute?_add (e := e) sum answer rest alt
    rw [exec_op rfl] at added
    by_cases readable : sum < 2 ^ 39
    · rw [if_pos readable] at sums
      refine ⟨answer, taken, rest, rfl, run, readable, ?_⟩
      obtain rfl | rfl := left
      · exact (Option.some.inj (sums.1.symm.trans added)).symm
      · exact (Option.some.inj (sums.2.symm.trans added)).symm
    · rw [if_neg readable] at sums
      obtain rfl | rfl := left
      · exact nomatch sums.1.symm.trans added
      · exact nomatch sums.2.symm.trans added
  · rintro ⟨answer, taken, rest, rfl, run, readable, rfl⟩
    obtain ⟨result, denotes, ran⟩ := x.complete (Bytes.writeNumber sum) rest alt run
    obtain rfl := denotes.eq_writeBool
    have sums := execute?_add (e := e) sum answer rest alt
    rw [if_pos readable] at sums
    obtain ran | ran := ran
    · exact ⟨_, ran, (exec_op rfl _).trans sums.1⟩
    · exact ⟨_, ran, (exec_op rfl _).trans sums.2⟩

section Sum

variable {α : Type} {rels : α → AnswerRel} {scripts : α → Script}

private theorem countP_cons (part : Bool × List Bytes) (parts : List (Bool × List Bytes)) :
    (part :: parts).countP Prod.fst = part.1.toNat + parts.countP Prod.fst := by
  rw [List.countP_cons, Nat.add_comm]
  cases part.1 <;> rfl

private theorem countP_dropLast_cons (part : Bool × List Bytes) {parts : List (Bool × List Bytes)}
    (more : parts ≠ []) : (part :: parts).dropLast.countP Prod.fst =
      part.1.toNat + parts.dropLast.countP Prod.fst := by
  rw [List.dropLast_cons_of_ne_nil more, countP_cons]

/-- The sum is read before every addition, so only the last one may make it unreadable. -/
theorem exec_sum {items : List α} (answers : ∀ x ∈ items, e.AnswersW (rels x) true (scripts x))
    (balanced : ∀ x ∈ items, e.Balanced (scripts x)) {sum : Nat} {main alt : List Bytes}
    {out : Stacks} :
    e.exec (items.flatMap fun x => scripts x ++ [.op .add]) ⟨Bytes.writeNumber sum :: main, alt⟩ =
        some out ↔
      ∃ parts below, List.Forall₂ (fun x part => rels x part.1 part.2) items parts ∧
        main = parts.flatMap Prod.snd ++ below ∧
        (parts ≠ [] → sum + parts.dropLast.countP Prod.fst < 2 ^ 39) ∧
        out = ⟨Bytes.writeNumber (sum + parts.countP Prod.fst : Nat) :: below, alt⟩ := by
  induction items generalizing sum main with
  | nil =>
    simp only [List.flatMap_nil, List.forall₂_nil_left_iff]
    constructor
    · intro ran
      cases ran
      exact ⟨[], main, rfl, rfl, fun none => absurd rfl none, rfl⟩
    · rintro ⟨parts, below, rfl, rfl, _, rfl⟩
      rfl
  | cons x rest ih =>
    obtain ⟨answersX, answersRest⟩ := List.forall_mem_cons.mp answers
    obtain ⟨balancedX, balancedRest⟩ := List.forall_mem_cons.mp balanced
    rw [List.flatMap_cons, (balancedX.append (e.balanced_op .add rfl)).exec_append_eq_some]
    constructor
    · rintro ⟨middle, ran, added⟩
      obtain ⟨answer, taken, left, rfl, run, readable, rfl⟩ :=
        (answersX.exec_add balancedX).mp ran
      obtain ⟨parts, below, runs, rfl, bounded, rfl⟩ := (ih answersRest balancedRest).mp added
      refine ⟨(answer, taken) :: parts, below, .cons run runs, (List.append_assoc ..).symm, ?_, ?_⟩
      · intro _
        by_cases more : parts = []
        · subst more
          exact readable
        · rw [countP_dropLast_cons _ more, ← Nat.add_assoc]
          exact bounded more
      · rw [countP_cons, Nat.add_assoc]
    · rintro ⟨_, below, runs, rfl, bounded, rfl⟩
      cases runs with
      | @cons _ part _ parts run runs =>
        refine ⟨_, (answersX.exec_add balancedX).mpr
          ⟨part.1, part.2, parts.flatMap Prod.snd ++ below, List.append_assoc .., run, ?_, rfl⟩, ?_⟩
        · exact Nat.lt_of_le_of_lt (Nat.le_add_right ..) (bounded (List.cons_ne_nil _ _))
        · refine (ih answersRest balancedRest).mpr ⟨parts, below, runs, rfl, fun more => ?_, ?_⟩
          · rw [Nat.add_assoc, ← countP_dropLast_cons part more]
            exact bounded (List.cons_ne_nil _ _)
          · rw [countP_cons, Nat.add_assoc]

theorem exec_compare (sum k : Nat) (rest alt : List Bytes) :
    e.exec [.ofNumber k, .op .equal] ⟨Bytes.writeNumber sum :: rest, alt⟩ =
      some ⟨Bytes.writeBool (sum == k) :: rest, alt⟩ := by
  have same : (Bytes.writeNumber k == Bytes.writeNumber sum) = (sum == k) := by
    rw [Bool.eq_iff_iff, beq_iff_eq, beq_iff_eq, Bytes.writeNumber_inj, eq_comm]
  rw [← List.singleton_append, (e.balanced_ofNumber k).exec_append, exec_ofNumber, Option.bind_some,
    exec_op rfl, ← same]
  rfl

theorem threshold_cons (k : Nat) (first : α) (rest : List α) :
    Script.threshold k ((first :: rest).map scripts) = scripts first ++
      ((rest.flatMap fun x => scripts x ++ [.op .add]) ++ [.ofNumber k, .op .equal]) := by
  simp [Script.threshold, List.flatMap_map]

/-- A `thresh` adds up all answers and compares the sum with `k`. -/
theorem AnswersB.threshold {k : Nat} {first : α} {rest : List α}
    (head : e.AnswersB (rels first) true (scripts first)) (balancedHead : e.Balanced (scripts first))
    (others : ∀ x ∈ rest, e.AnswersW (rels x) true (scripts x))
    (balanced : ∀ x ∈ rest, e.Balanced (scripts x)) :
    e.AnswersB (AnswerRel.threshold false k ((first :: rest).map rels)) true
      (Script.threshold k ((first :: rest).map scripts)) := by
  have balancedSum : e.Balanced (rest.flatMap fun x => scripts x ++ [.op .add]) :=
    e.balanced_flatMap fun x member => (balanced x member).append (e.balanced_op .add rfl)
  have readable (part : Bool × List Bytes) (parts : List (Bool × List Bytes)) :
      (part :: parts).dropLast.countP Prod.fst < 2 ^ 39 ↔
        (parts ≠ [] → part.1.toNat + parts.dropLast.countP Prod.fst < 2 ^ 39) := by
    by_cases more : parts = []
    · subst more
      simp
    · rw [countP_dropLast_cons part more]
      simp [more]
  constructor
  · intro main alt out ran
    rw [threshold_cons] at ran
    obtain ⟨middle, ranHead, ran⟩ := balancedHead.exec_append_eq_some.mp ran
    obtain ⟨middle', summed, compared⟩ := balancedSum.exec_append_eq_some.mp ran
    obtain ⟨answer, taken, left, result, rfl, run, denotes, rfl⟩ := head.sound ranHead
    obtain rfl := denotes.eq_writeBool
    rw [Bytes.writeBool_eq] at summed
    obtain ⟨parts, below, runs, rfl, bounded, rfl⟩ := (exec_sum others balanced).mp summed
    rw [exec_compare] at compared
    refine ⟨_, taken ++ parts.flatMap Prod.snd, below, _, (List.append_assoc ..).symm,
      ⟨(answer, taken) :: parts, ?_, rfl, (readable _ _).mpr bounded, rfl, of_false_eq_true⟩,
      .writeBool true _, ?_⟩
    · rw [List.forall₂_map_left_iff]
      exact .cons run runs
    · rw [countP_cons]
      exact (Option.some.inj compared).symm
  · rintro answer taken left alt ⟨parts, runs, rfl, bounded, rfl, _⟩
    rw [List.forall₂_map_left_iff] at runs
    cases runs with
    | @cons _ part _ parts run runs =>
      obtain ⟨result, denotes, ranHead⟩ := head.complete (parts.flatMap Prod.snd ++ left) alt run
      obtain rfl := denotes.eq_writeBool
      refine ⟨_, .writeBool true _, ?_⟩
      rw [threshold_cons, balancedHead.exec_append, List.flatMap_cons, List.append_assoc, ranHead,
        Option.bind_some, balancedSum.exec_append, Bytes.writeBool_eq,
        (exec_sum others balanced).mpr
          ⟨parts, left, runs, rfl, (readable part parts).mp bounded, rfl⟩,
        Option.bind_some, exec_compare, countP_cons]

end Sum

end Evaluator

end LockScript
