import Mathlib.Tactic.IntervalCases
import LockScript.Proofs.Adequacy

/-! # Scripts as bytes

Whoever checks a witness is given the bytes of a script and reads them instruction by instruction.
Conditions are written with pushes of 1 to 75 bytes and with pushes of small numbers. Scripts of such
instructions are read as they were written, so what holds of running a script holds of its bytes.
-/

namespace LockScript

namespace Opcode

/-- Every opcode. -/
def all : List Opcode :=
  [.if, .notIf, .else, .endIf, .verify, .toAltStack, .fromAltStack, .ifDup, .dup, .swap, .size,
    .equal, .equalVerify, .zeroNotEqual, .add, .boolAnd, .boolOr, .numEqual, .numEqualVerify,
    .ripemd160, .sha256, .hash160, .hash256, .checkSig, .checkSigVerify, .checkMultiSig,
    .checkMultiSigVerify, .checkLockTimeVerify, .checkSequenceVerify, .checkSigAdd]

/-- The opcode that a byte stands for. -/
def ofByte? (byte : UInt8) : Option Opcode :=
  all.find? (·.byte == byte)

end Opcode

namespace Instruction

/-- Reads the data of a push, of which the first `width` bytes are the length. -/
def takeData? (width : Nat) (bytes : Bytes) : Option (Instruction × Bytes) :=
  let length := Bytes.magnitude (bytes.take width)
  if width + length ≤ bytes.length then
    some (.push ((bytes.drop width).take length), (bytes.drop width).drop length)
  else none

/-- Reads one instruction and leaves the bytes after it. A push of up to 75 bytes is its own length.
-/
def next? : Bytes → Option (Instruction × Bytes)
  | [] => none
  | byte :: rest =>
    if byte.toNat = 0 then some (.ofNumber 0, rest)
    else if byte.toNat < 0x4c then takeData? 1 (byte :: rest)
    else if byte.toNat = 0x4c then takeData? 1 rest
    else if byte.toNat = 0x4d then takeData? 2 rest
    else if byte.toNat = 0x4e then takeData? 4 rest
    else if 0x51 ≤ byte.toNat ∧ byte.toNat ≤ 0x60 then some (.ofNumber (byte.toNat - 0x50), rest)
    else (Opcode.ofByte? byte).map (.op ·, rest)

theorem length_takeData? {width : Nat} {bytes after : Bytes} {instruction : Instruction}
    (taken : takeData? width bytes = some (instruction, after)) :
    after.length + width ≤ bytes.length := by
  simp only [takeData?] at taken
  split at taken
  next enough =>
    cases taken
    simp only [List.length_drop]
    omega
  next => cases taken

theorem length_next? {bytes after : Bytes} {instruction : Instruction}
    (read : next? bytes = some (instruction, after)) : after.length < bytes.length := by
  cases bytes with
  | nil => cases read
  | cons byte rest =>
    rw [List.length_cons]
    simp only [next?] at read
    split_ifs at read
    · cases read
      exact Nat.lt_succ_self _
    · exact Nat.lt_succ_of_le (Nat.le_of_succ_le_succ (length_takeData? read))
    · exact Nat.lt_succ_of_le (Nat.le_trans (Nat.le_add_right ..) (length_takeData? read))
    · exact Nat.lt_succ_of_le (Nat.le_trans (Nat.le_add_right ..) (length_takeData? read))
    · exact Nat.lt_succ_of_le (Nat.le_trans (Nat.le_add_right ..) (length_takeData? read))
    · cases read
      exact Nat.lt_succ_self _
    · obtain ⟨opcode, _, shape⟩ := Option.map_eq_some_iff.mp read
      cases shape
      exact Nat.lt_succ_self _

/-- An instruction whose first byte alone tells how long it is. -/
def IsShort : Instruction → Prop
  | .push data => 0 < data.length ∧ data.length < 0x4c
  | .small _ | .op _ => True

theorem next?_bytes {instruction : Instruction} (short : instruction.IsShort) (rest : Bytes) :
    next? (instruction.bytes ++ rest) = some (instruction, rest) := by
  cases instruction with
  | push data =>
    obtain ⟨positive, few⟩ := short
    have value : (UInt8.ofNat data.length).toNat = data.length :=
      UInt8.toNat_ofNat_of_lt' (by simp [UInt8.size]; omega)
    have nonzero : (UInt8.ofNat data.length).toNat ≠ 0 := value.symm ▸ Nat.ne_of_gt positive
    have direct : (UInt8.ofNat data.length).toNat < 0x4c := value.symm ▸ few
    have length : Bytes.magnitude [UInt8.ofNat data.length] = data.length := by
      simp only [Bytes.magnitude, value, Nat.mul_zero, Nat.add_zero]
    simp only [bytes, few, if_true, List.cons_append, List.nil_append, next?, nonzero, if_false,
      direct, takeData?, List.take_succ_cons, List.take_zero, length, List.length_cons,
      List.length_append, List.drop_succ_cons, List.drop_zero]
    rw [if_pos (by omega), List.take_left, List.drop_left]
  | small number =>
    obtain ⟨number, bounded⟩ := number
    interval_cases number <;> rfl
  | op opcode => cases opcode <;> rfl

theorem isShort_ofNumber {number : Nat} (bounded : number < 2 ^ 64) :
    (Instruction.ofNumber number).IsShort := by
  unfold Instruction.ofNumber
  split
  next => trivial
  next =>
    have short := (length_numberBytes_le number 8).mpr (Nat.lt_trans bounded (by decide))
    exact ⟨List.length_pos_of_ne_nil (numberBytes_ne_nil number), by omega⟩

end Instruction

namespace Script

/-- Reads a script. -/
def parse? (bytes : Bytes) : Option Script :=
  if bytes = [] then some []
  else match _ : Instruction.next? bytes with
    | none => none
    | some (instruction, after) => (parse? after).map (instruction :: ·)
termination_by bytes.length
decreasing_by exact Instruction.length_next? ‹_›

theorem parse?_cons {instruction : Instruction} (short : instruction.IsShort) (rest : Bytes) :
    parse? (instruction.bytes ++ rest) = (parse? rest).map (instruction :: ·) := by
  have next := Instruction.next?_bytes short rest
  have nonempty : instruction.bytes ++ rest ≠ [] := by
    intro empty
    rw [empty] at next
    cases next
  rw [parse?, if_neg nonempty]
  split
  next none => cases next.symm.trans none
  next read =>
    cases next.symm.trans read
    rfl

/-- A script of short instructions is read as it was written. -/
theorem parse?_bytes {script : Script} (short : ∀ i ∈ script, i.IsShort) :
    parse? script.bytes = some script := by
  induction script with
  | nil => rw [bytes, List.flatMap_nil, parse?, if_pos rfl]
  | cons first rest ih =>
    obtain ⟨head, others⟩ := List.forall_mem_cons.mp short
    rw [bytes, List.flatMap_cons, parse?_cons head, ← bytes, ih others]
    rfl

/-- Whether all instructions are short. -/
def IsShort (script : Script) : Prop :=
  ∀ i ∈ script, i.IsShort

theorem isShort_append {first second : Script} :
    IsShort (first ++ second) ↔ IsShort first ∧ IsShort second :=
  List.forall_mem_append

theorem isShort_cons {instruction : Instruction} {rest : Script} :
    IsShort (instruction :: rest) ↔ instruction.IsShort ∧ IsShort rest :=
  List.forall_mem_cons

theorem isShort_nil : IsShort [] :=
  nofun

theorem isShort_op (opcode : Opcode) : (Instruction.op opcode).IsShort :=
  trivial

theorem IsShort.flatMap {α : Type} {f : α → Script} {items : List α}
    (short : ∀ x ∈ items, IsShort (f x)) : IsShort (items.flatMap f) := by
  intro i member
  obtain ⟨x, among, within⟩ := List.mem_flatMap.mp member
  exact short x among i within

theorem IsShort.verified {script : Script} (short : script.IsShort) : script.verified.IsShort := by
  have more : IsShort (script ++ [.op .verify]) :=
    isShort_append.mpr ⟨short, isShort_cons.mpr ⟨isShort_op _, isShort_nil⟩⟩
  unfold Script.verified
  split
  next =>
    split
    next verifying _ =>
      exact isShort_append.mpr ⟨fun i member => short i ((List.dropLast_sublist _).subset member),
        isShort_cons.mpr ⟨isShort_op verifying, isShort_nil⟩⟩
    next => exact more
  next => exact more

variable {κ : Type} [PublicKey κ] (context : Context)

theorem isShort_pushKey (key : κ) : (pushKey context key).IsShort :=
  ⟨PublicKey.length_pushed_pos context.scheme key,
    Nat.lt_of_le_of_lt (PublicKey.length_pushed_le context.scheme key) (by decide)⟩

theorem isShort_ofLeaf (l : Leaf κ Digest) : IsShort (ofLeaf context l) := by
  have counted {cap : Option Nat} {most : Nat} (ks : Threshold κ cap) (bound : most ∈ cap)
      (few : most < 2 ^ 64) : (Instruction.ofNumber ks.k).IsShort ∧ (Instruction.ofNumber ks.n).IsShort := by
    have capped := ks.capped most bound
    have enough := ks.k_le
    exact ⟨Instruction.isShort_ofNumber (by omega),
      Instruction.isShort_ofNumber (by rw [Threshold.n]; omega)⟩
  cases l with
  | one => exact isShort_cons.mpr ⟨Instruction.isShort_ofNumber (by decide), isShort_nil⟩
  | zero => exact isShort_cons.mpr ⟨Instruction.isShort_ofNumber (by decide), isShort_nil⟩
  | key k => exact isShort_cons.mpr ⟨isShort_pushKey context k, isShort_nil⟩
  | keyHash k =>
    have push : (Instruction.push (PublicKey.hash context.scheme k)).IsShort := by
      rw [Instruction.IsShort, PublicKey.length_hash]
      decide
    simp [ofLeaf, isShort_cons, isShort_op, isShort_nil, push]
  | after lock =>
    have few := lock.bounded
    have push : (Instruction.ofNumber lock.value).IsShort := Instruction.isShort_ofNumber (by omega)
    simp [ofLeaf, isShort_cons, isShort_op, isShort_nil, push]
  | older lock =>
    have few := lock.bounded
    have push : (Instruction.ofNumber lock.value).IsShort := Instruction.isShort_ofNumber (by omega)
    simp [ofLeaf, isShort_cons, isShort_op, isShort_nil, push]
  | digest d =>
    have size : (Instruction.ofNumber 32).IsShort := Instruction.isShort_ofNumber (by decide)
    have push : (Instruction.push d.bytes).IsShort := by
      rw [Instruction.IsShort, d.width_eq]
      cases d.kind <;> decide
    simp [ofLeaf, isShort_cons, isShort_op, isShort_nil, size, push]
  | multi ks =>
    obtain ⟨k, n⟩ := counted ks rfl (by decide)
    have keys : IsShort (ks.items.map (pushKey context)) := by
      intro i member
      obtain ⟨key, _, rfl⟩ := List.mem_map.mp member
      exact isShort_pushKey context key
    simp [ofLeaf, isShort_cons, isShort_append, isShort_op, isShort_nil, k, n, keys]
  | multiA ks =>
    obtain ⟨k, _⟩ := counted ks rfl (by decide)
    have checked (key : κ) (opcode : Opcode) : IsShort [pushKey context key, .op opcode] :=
      isShort_cons.mpr ⟨isShort_pushKey context key, isShort_cons.mpr ⟨isShort_op _, isShort_nil⟩⟩
    have chain : IsShort (checkSigChain context ks.items) := by
      cases ks.items with
      | nil => exact isShort_nil
      | cons first rest =>
        exact isShort_append.mpr ⟨checked first _, .flatMap fun key _ => checked key _⟩
    simp [ofLeaf, isShort_cons, isShort_append, isShort_op, isShort_nil, k, chain]

end Script

namespace Condition

variable {κ α : Type} [PublicKey κ] (context : Context)

/-- The script of a condition has short instructions only. -/
theorem isShort_script {t : Condition κ Digest α} (counts : t.CountsBelow (2 ^ 64)) :
    (t.script context).IsShort := by
  open Script in
  induction t using Condition.induct with
  | leaf note l =>
    rw [script_leaf]
    exact isShort_ofLeaf context l
  | wrap note w x ih =>
    rw [countsBelow_wrap] at counts
    have below := ih counts
    rw [script_wrap]
    cases w with
    | verify => exact below.verified
    | _ => simp [Script.wrap, isShort_cons, isShort_append, isShort_op, isShort_nil, below]
  | pair note op x y ihX ihY =>
    obtain ⟨countsX, countsY⟩ := (countsBelow_pair ..).mp counts
    have first := ihX countsX
    have second := ihY countsY
    rw [script_pair]
    cases op <;>
      simp [Script.pair, isShort_cons, isShort_append, isShort_op, isShort_nil, first, second]
  | andOr note x y z ihX ihY ihZ =>
    obtain ⟨countsX, countsY, countsZ⟩ := (countsBelow_andOr ..).mp counts
    have first := ihX countsX
    have second := ihY countsY
    have third := ihZ countsZ
    rw [script_andOr]
    simp [Script.andOr, isShort_cons, isShort_append, isShort_op, isShort_nil, first, second, third]
  | thresh note k items ih =>
    obtain ⟨few, countsBelow⟩ := (countsBelow_thresh ..).mp counts
    have below := fun x member => ih x member (countsBelow x member)
    have push := Instruction.isShort_ofNumber few
    rw [script_thresh]
    cases items with
    | nil => simp [Script.threshold, isShort_cons, isShort_op, isShort_nil, push]
    | cons first rest =>
      obtain ⟨head, others⟩ := List.forall_mem_cons.mp below
      have adds : IsShort ((rest.map (Condition.script context)).flatMap fun x => x ++ [.op .add]) := by
        rw [List.flatMap_map]
        exact .flatMap fun x member => isShort_append.mpr
          ⟨others x member, isShort_cons.mpr ⟨isShort_op _, isShort_nil⟩⟩
      simp [Script.threshold, isShort_cons, isShort_append, isShort_op, isShort_nil, push, head, adds]

end Condition

namespace Evaluator

variable (e : Evaluator)

/-- Whether a script, given as bytes, accepts a witness, of which the last element is on top. -/
def accepts (script : Bytes) (witness : List Bytes) : Bool :=
  match Script.parse? script with
  | some script => e.acceptsScript script witness
  | none => false

theorem accepts_bytes {script : Script} (short : script.IsShort) (witness : List Bytes) :
    e.accepts script.bytes witness = e.acceptsScript script witness := by
  rw [accepts, Script.parse?_bytes short]

end Evaluator

namespace Typed.Validated

variable {κ : Type} [PublicKey κ] {context : Context} {e : Evaluator} {t : Typed κ Digest}

/-- The encoded script of a condition accepts a witness if and only if the condition answers yes on
all of it. -/
theorem accepts_iff (same : e.scheme = context.scheme) (valid : Validated context t)
    (top : t.type.isTopLevel = true) (counts : t.CountsBelow (2 ^ 64)) (witness : List Bytes) :
    e.accepts (t.script context).bytes witness = true ↔ t.Answers e false true witness.reverse := by
  rw [e.accepts_bytes (t.isShort_script context counts)]
  exact valid.acceptsScript_iff same top witness

end Typed.Validated

end LockScript
