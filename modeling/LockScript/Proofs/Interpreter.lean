import LockScript.Script.Encoding
import LockScript.Proofs.ScriptNumber

/-! # Running scripts

An interpreter for the opcodes that conditions are built from. The initial stack is the witness with
its last element on top, and a script accepts if it ends with one element, which is true. The
argument of an `IF` is the empty element or 1, numbers have at most five bytes, and the element that
`CHECKMULTISIG` takes in addition is empty.

Whether a signature verifies and whether a lock is met is up to the transaction, so both are
parameters here.
-/

namespace LockScript

/-- What a script cannot decide by itself. -/
structure Evaluator where
  /-- Tapscripts have no `CHECKMULTISIG`, all others no `CHECKSIGADD`. -/
  scheme : SignatureScheme
  /-- Whether a signature verifies under a key; the empty element never does. -/
  verifies : (key signature : Bytes) → Bool
  meetsAfter : Int → Bool
  meetsOlder : Int → Bool
  /-- Whether a failing check aborts the script unless its signature is empty. -/
  nullFail : Bool

/-- The stack and the alternative stack, the top element first. -/
structure Stacks where
  main : List Bytes
  alt : List Bytes

namespace Evaluator

variable (e : Evaluator)

/-- Whether an element is a signature by a key. -/
def checkSig (key signature : Bytes) : Bool :=
  !signature.isEmpty && e.verifies key signature

/-- Whether signatures are by different keys, both in order. -/
def checkSigs : (signatures keys : List Bytes) → Bool
  | [], _ => true
  | _ :: _, [] => false
  | signature :: signatures, key :: keys =>
    if e.checkSig key signature then checkSigs signatures keys
    else checkSigs (signature :: signatures) keys

/-- The outcome of a check of the given signatures, if it does not abort. -/
def verdict? (passed : Bool) (signatures : List Bytes) : Option Bool :=
  if e.nullFail && !passed && signatures.any (!·.isEmpty) then none else some passed

/-- The outcome of a check of one signature. -/
def sigVerdict? (key signature : Bytes) : Option Bool :=
  e.verdict? (e.checkSig key signature) [signature]

/-- Reads a number and takes as many elements below it. -/
def takeCounted? : List Bytes → Option (List Bytes × List Bytes)
  | [] => none
  | count :: rest => do
    let n ← count.readNumber
    if 0 ≤ n ∧ n.toNat ≤ rest.length then some (rest.splitAt n.toNat) else none

/-- The outcome of a `CHECKMULTISIG` and what it leaves on the stack. Keys and signatures were pushed
in order, so the last ones are on top. -/
def multiVerdict? (main : List Bytes) : Option (Bool × List Bytes) := do
  let (keys, main) ← takeCounted? main
  let (signatures, main) ← takeCounted? main
  match main with
  | [] :: rest =>
    let passed ← e.verdict? (e.checkSigs signatures.reverse keys.reverse) signatures
    some (passed, rest)
  | _ => none

/-- Replaces the top element. -/
def unary (f : Bytes → Option (List Bytes)) : List Bytes → Option (List Bytes)
  | a :: rest => (f a).map (· ++ rest)
  | [] => none

/-- Replaces the top two elements. -/
def binary (f : (top below : Bytes) → Option (List Bytes)) : List Bytes → Option (List Bytes)
  | a :: b :: rest => (f a b).map (· ++ rest)
  | _ => none

/-- Replaces the top three elements. -/
def ternary (f : (top below last : Bytes) → Option (List Bytes)) : List Bytes → Option (List Bytes)
  | a :: b :: c :: rest => (f a b c).map (· ++ rest)
  | _ => none

/-- The outcome of an opcode that has a verifying form, and what it leaves on the stack. -/
def test? (opcode : Opcode) (main : List Bytes) : Option (Bool × List Bytes) :=
  match opcode, main with
  | .equal, a :: b :: rest => some (a == b, rest)
  | .numEqual, a :: b :: rest => do return ((← a.readNumber) == (← b.readNumber), rest)
  | .checkSig, key :: signature :: rest => (e.sigVerdict? key signature).map (·, rest)
  | .checkMultiSig, main => if e.scheme = .ecdsa then e.multiVerdict? main else none
  | _, _ => none

/-- Pushes an outcome. -/
def pushing (outcome : Bool × List Bytes) : List Bytes :=
  Bytes.writeBool outcome.1 :: outcome.2

/-- Goes on if the outcome is true. -/
def passing? (outcome : Bool × List Bytes) : Option (List Bytes) :=
  if outcome.1 then some outcome.2 else none

/-- What an opcode that does not look at the alternative stack does to the other one. -/
def onMain? : Opcode → List Bytes → Option (List Bytes)
  | .ifDup => unary fun a => some (if a.isTrue then [a, a] else [a])
  | .dup => unary fun a => some [a, a]
  | .swap => binary fun a b => some [b, a]
  | .size => unary fun a => some [Bytes.writeNumber (a.length : Nat), a]
  | .verify => unary fun a => if a.isTrue then some [] else none
  | .zeroNotEqual => unary fun a => do return [Bytes.writeBool ((← a.readNumber) != 0)]
  | .add => binary fun a b => do return [Bytes.writeNumber ((← a.readNumber) + (← b.readNumber))]
  | .boolAnd => binary fun a b => do
    return [Bytes.writeBool ((← a.readNumber) != 0 && (← b.readNumber) != 0)]
  | .boolOr => binary fun a b => do
    return [Bytes.writeBool ((← a.readNumber) != 0 || (← b.readNumber) != 0)]
  | .sha256 => unary fun a => some [HashKind.hash .sha256 a]
  | .hash256 => unary fun a => some [HashKind.hash .hash256 a]
  | .ripemd160 => unary fun a => some [HashKind.hash .ripemd160 a]
  | .hash160 => unary fun a => some [HashKind.hash .hash160 a]
  | .checkLockTimeVerify => unary fun a => do
    if e.meetsAfter (← a.readNumber) then some [a] else none
  | .checkSequenceVerify => unary fun a => do
    if e.meetsOlder (← a.readNumber) then some [a] else none
  | .checkSigAdd => ternary fun key count signature => do
    if e.scheme = .schnorr then
      let passed ← e.sigVerdict? key signature
      return [Bytes.writeNumber ((← count.readNumber) + (passed.toNat : Nat))]
    else none
  | .equalVerify => fun main => (e.test? .equal main).bind passing?
  | .numEqualVerify => fun main => (e.test? .numEqual main).bind passing?
  | .checkSigVerify => fun main => (e.test? .checkSig main).bind passing?
  | .checkMultiSigVerify => fun main => (e.test? .checkMultiSig main).bind passing?
  | opcode => fun main => (e.test? opcode main).map pushing

/-- What an opcode does to the stacks. -/
def execute? (opcode : Opcode) (store : Stacks) : Option Stacks :=
  match opcode with
  | .toAltStack =>
    match store.main with
    | top :: main => some ⟨main, top :: store.alt⟩
    | [] => none
  | .fromAltStack =>
    match store.alt with
    | top :: alt => some ⟨top :: store.main, alt⟩
    | [] => none
  | opcode => (e.onMain? opcode store.main).map (⟨·, store.alt⟩)

end Evaluator

/-- The stacks, and for each open conditional whether its current branch runs, the innermost first. -/
structure Machine where
  store : Stacks
  branches : List Bool

namespace Evaluator

variable (e : Evaluator)

/-- Reads the argument of a conditional, which is the empty element or 1. -/
def condition? : List Bytes → Option (Bool × List Bytes)
  | [] => none
  | a :: rest => if a = [] then some (false, rest) else if a = [1] then some (true, rest) else none

/-- Opens a conditional, which runs its first branch if its argument is `wanted`. Where nothing runs,
no argument is taken. -/
def openBranch? (wanted : Bool) (m : Machine) : Option Machine :=
  if m.branches.all id then
    (condition? m.store.main).map fun (value, rest) =>
      ⟨⟨rest, m.store.alt⟩, (value == wanted) :: m.branches⟩
  else some ⟨m.store, false :: m.branches⟩

/-- Does something to the stacks unless a branch around is skipped. -/
def whereRunning (f : Stacks → Option Stacks) (m : Machine) : Option Machine :=
  if m.branches.all id then (f m.store).map (⟨·, m.branches⟩) else some m

/-- Runs one instruction. Outside of running branches only conditionals are followed. -/
def step (m : Machine) : Instruction → Option Machine
  | .op .if => openBranch? true m
  | .op .notIf => openBranch? false m
  | .op .else =>
    match m.branches with
    | [] => none
    | branch :: outer => some ⟨m.store, (!branch) :: outer⟩
  | .op .endIf =>
    match m.branches with
    | [] => none
    | _ :: outer => some ⟨m.store, outer⟩
  | .op opcode => whereRunning (e.execute? opcode) m
  | .push data => whereRunning (fun store => some ⟨data :: store.main, store.alt⟩) m
  | .small number =>
    whereRunning (fun store => some ⟨Bytes.writeNumber number.val :: store.main, store.alt⟩) m

/-- Runs a script. -/
def run (script : Script) (m : Machine) : Option Machine :=
  script.foldlM e.step m

/-- Runs a script on its own, which must close the conditionals that it opens. -/
def exec (script : Script) (store : Stacks) : Option Stacks := do
  let m ← e.run script ⟨store, []⟩
  if m.branches.isEmpty then some m.store else none

/-- Whether a script accepts a witness, of which the last element is on top. -/
def acceptsScript (script : Script) (witness : List Bytes) : Bool :=
  match e.exec script ⟨witness.reverse, []⟩ with
  | some ⟨[top], _⟩ => top.isTrue
  | _ => false

end Evaluator

end LockScript
