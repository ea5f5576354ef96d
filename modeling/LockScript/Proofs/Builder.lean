import LockScript.Proofs.Parsing

/-! # Writing scripts byte by byte

A script is written into a string of bytes, one opcode or push behind the other, and the writer keeps the
last opcode in mind, so that a verification can be folded into it. Bytes that are appended as a whole come
without that knowledge: the last opcode is found again by reading everything from the start. Data can hold
any bytes, but a push is read as a whole, so data at the end of a script is not taken for an opcode.
-/

namespace LockScript

/-- A script that is being written, and the byte of its last opcode, unless it ends in data. -/
structure Builder where
  bytes : Bytes
  lastOpcode : Option UInt8

namespace Builder

/-! ## Reading the last opcode -/

/-- The bytes behind a push, the length of which takes the first `width` bytes; none if data is missing.
-/
def afterData? (width : Nat) (bytes : Bytes) : Option Bytes :=
  let length := Bytes.magnitude (bytes.take width)
  if width + length ≤ bytes.length then some (bytes.drop (width + length)) else none

/-- The opcode of one instruction, if it is no push of data, and the bytes behind it. -/
def skip? (byte : UInt8) (rest : Bytes) : Option (Option UInt8 × Bytes) :=
  if byte.toNat < 0x4c then (afterData? 1 (byte :: rest)).map (none, ·)
  else if byte.toNat = 0x4c then (afterData? 1 rest).map (none, ·)
  else if byte.toNat = 0x4d then (afterData? 2 rest).map (none, ·)
  else if byte.toNat = 0x4e then (afterData? 4 rest).map (none, ·)
  else some (some byte, rest)

theorem length_afterData? {width : Nat} {bytes after : Bytes} (skipped : afterData? width bytes = some after) :
    after.length + width ≤ bytes.length := by
  simp only [afterData?] at skipped
  split at skipped
  next enough =>
    cases skipped
    rw [List.length_drop]
    omega
  next => cases skipped

theorem length_skip? {byte : UInt8} {rest after : Bytes} {code : Option UInt8}
    (skipped : skip? byte rest = some (code, after)) : after.length < rest.length + 1 := by
  have within {width : Nat} {bytes : Bytes} (few : bytes.length ≤ rest.length + width)
      (found : (afterData? width bytes).map (Prod.mk (none : Option UInt8)) = some (code, after)) :
      after.length < rest.length + 1 := by
    obtain ⟨_, read, same⟩ := Option.map_eq_some_iff.mp found
    have bound := length_afterData? read
    cases same
    omega
  simp only [skip?] at skipped
  split_ifs at skipped
  · exact within (by simp) skipped
  · exact within (by omega) skipped
  · exact within (by omega) skipped
  · exact within (by omega) skipped
  · cases skipped
    exact Nat.lt_succ_self _

/-- The last opcode of bytes that are read behind an opcode `found`. There is none behind data, and none
if the last push is cut short. -/
def lastOpcode? (found : Option UInt8) : Bytes → Option UInt8
  | [] => found
  | byte :: rest =>
    match _ : skip? byte rest with
    | some (code, after) => lastOpcode? code after
    | none => none
termination_by bytes => bytes.length
decreasing_by exact length_skip? ‹_›

/-! ## Writing -/

/-- Nothing is written yet. -/
def empty : Builder := ⟨[], none⟩

/-- Takes up bytes that were written before. -/
def ofBytes (bytes : Bytes) : Builder := ⟨bytes, lastOpcode? none bytes⟩

/-- Appends bytes that were written before. -/
def append (builder : Builder) (bytes : Bytes) : Builder := ofBytes (builder.bytes ++ bytes)

/-- Writes the byte of an opcode. -/
def pushCode (builder : Builder) (code : UInt8) : Builder := ⟨builder.bytes ++ [code], some code⟩

/-- Writes an opcode. -/
def pushOpcode (builder : Builder) (opcode : Opcode) : Builder := builder.pushCode opcode.byte

/-- Writes a push of data. -/
def pushSlice (builder : Builder) (data : Bytes) : Builder :=
  ⟨builder.bytes ++ (Instruction.push data).bytes, none⟩

/-- Writes a push of a number; those from -1 to 16 have opcodes. -/
def pushInt (builder : Builder) (number : Int) : Builder :=
  if number = -1 ∨ 1 ≤ number ∧ number ≤ 16 then builder.pushCode (UInt8.ofNat (number + 0x50).toNat)
  else if number = 0 then builder.pushCode 0
  else builder.pushSlice (Bytes.writeNumber number)

/-- Writes a push of a count, which has 64 bits and is taken for a signed number. -/
def pushCount (builder : Builder) (count : Nat) : Builder := builder.pushInt (BitVec.ofNat 64 count).toInt

/-- Drops the last byte and writes an opcode in its place. -/
def replaceLast (builder : Builder) (opcode : Opcode) : Builder :=
  Builder.pushOpcode ⟨builder.bytes.dropLast, builder.lastOpcode⟩ opcode

/-- Verifies the result of what is written: by the last opcode if it can, else by one more. -/
def pushVerify (builder : Builder) : Builder :=
  if builder.lastOpcode = some Opcode.equal.byte then builder.replaceLast .equalVerify
  else if builder.lastOpcode = some Opcode.numEqual.byte then builder.replaceLast .numEqualVerify
  else if builder.lastOpcode = some Opcode.checkSig.byte then builder.replaceLast .checkSigVerify
  else if builder.lastOpcode = some Opcode.checkMultiSig.byte then builder.replaceLast .checkMultiSigVerify
  else builder.pushOpcode .verify

/-! ## What is written -/

variable (builder : Builder)

@[simp] theorem bytes_empty : empty.bytes = [] := rfl

@[simp] theorem bytes_append (bytes : Bytes) : (builder.append bytes).bytes = builder.bytes ++ bytes := rfl

@[simp] theorem bytes_pushOpcode (opcode : Opcode) :
    (builder.pushOpcode opcode).bytes = builder.bytes ++ Script.bytes [.op opcode] := rfl

@[simp] theorem bytes_pushSlice (data : Bytes) :
    (builder.pushSlice data).bytes = builder.bytes ++ Script.bytes [.push data] := by
  simp [pushSlice]

/-- A natural number is written as its shortest push. -/
@[simp] theorem bytes_pushInt (number : Nat) :
    (builder.pushInt number).bytes = builder.bytes ++ Script.bytes [.ofNumber number] := by
  rw [Script.bytes_cons, Script.bytes_nil, List.append_nil, pushInt]
  by_cases small : number < 17
  · interval_cases number <;> rfl
  · have natural : ¬ ((number : Int) = -1 ∨ 1 ≤ (number : Int) ∧ (number : Int) ≤ 16) := by omega
    have nonzero : ¬ (number : Int) = 0 := by omega
    have positive : 0 < (number : Int) := by omega
    rw [if_neg natural, if_neg nonzero, Instruction.ofNumber, dif_neg small, Bytes.writeNumber,
      if_neg nonzero, if_pos positive, Int.toNat_natCast]
    rfl

/-- A count of fewer than 63 bits is written as it is. -/
theorem bytes_pushCount {count : Nat} (few : count < 2 ^ 63) :
    (builder.pushCount count).bytes = builder.bytes ++ Script.bytes [.ofNumber count] := by
  have value : (BitVec.ofNat 64 count).toInt = count := by
    have bits : (BitVec.ofNat 64 count).toNat = count := by
      rw [BitVec.toNat_ofNat, Nat.mod_eq_of_lt (Nat.lt_trans few (by decide))]
    rw [BitVec.toInt_eq_toNat_of_lt (by rw [bits]; omega), bits]
  rw [pushCount, value, bytes_pushInt]

end Builder

/-! ## The last opcode -/

/-- The byte of an instruction that is no push of data. -/
def Instruction.code? : Instruction → Option UInt8
  | push _ => none
  | small number => if number.val = 0 then none else some (UInt8.ofNat (0x50 + number.val))
  | op opcode => some opcode.byte

namespace Builder

/-- A short instruction is skipped as a whole, whatever the bytes in its data. -/
theorem skip?_bytes {i : Instruction} (short : i.IsShort) (rest : Bytes) :
    ∃ byte data, i.bytes ++ rest = byte :: (data ++ rest) ∧
      skip? byte (data ++ rest) = some (i.code?, rest) := by
  cases i with
  | op opcode => exact ⟨_, [], rfl, by cases opcode <;> rfl⟩
  | small number =>
    obtain ⟨number, bounded⟩ := number
    refine ⟨_, [], rfl, ?_⟩
    interval_cases number <;> rfl
  | push data =>
    obtain ⟨positive, few⟩ := short
    have value : (UInt8.ofNat data.length).toNat = data.length :=
      UInt8.toNat_ofNat_of_lt' (by simp [UInt8.size]; omega)
    refine ⟨UInt8.ofNat data.length, data, by simp [Instruction.bytes, few], ?_⟩
    have after : afterData? 1 (UInt8.ofNat data.length :: (data ++ rest)) = some rest := by
      simp only [afterData?, List.take_succ_cons, List.take_zero, Bytes.magnitude, value, Nat.mul_zero,
        Nat.add_zero, List.length_cons, List.length_append]
      rw [if_pos (by omega), Nat.add_comm 1, List.drop_succ_cons, List.drop_left]
    rw [skip?, if_pos (by rw [value]; exact few), after]
    rfl

/-- The last opcode of a script is found in its bytes. -/
theorem lastOpcode?_bytes {script : Script} (short : script.IsShort) (found : Option UInt8) :
    lastOpcode? found script.bytes = script.foldl (fun _ i => i.code?) found := by
  induction script generalizing found with
  | nil => rw [Script.bytes_nil, lastOpcode?]; rfl
  | cons i rest ih =>
    obtain ⟨head, others⟩ := Script.isShort_cons.mp short
    obtain ⟨byte, data, shape, skipped⟩ := skip?_bytes head (Script.bytes rest)
    rw [Script.bytes_cons, shape, lastOpcode?]
    split
    next read =>
      cases skipped.symm.trans read
      exact ih others i.code?
    next missing => cases skipped.symm.trans missing

/-- Bytes that are taken up end in the opcode that their last instruction is, if that is no data. -/
theorem lastOpcode_ofBytes {script : Script} (short : script.IsShort) :
    (ofBytes script.bytes).lastOpcode = script.getLast?.bind Instruction.code? := by
  rw [ofBytes, lastOpcode?_bytes short]
  rcases List.eq_nil_or_concat' script with rfl | ⟨front, last, rfl⟩
  · rfl
  · simp

/-- A writer that knows its last instruction verifies as the script does. Of all instructions only the four
opcodes have the codes that are looked for. -/
theorem bytes_pushVerify {builder : Builder} {front : Script} {i : Instruction}
    (written : builder.bytes = Script.bytes (front ++ [i])) (last : builder.lastOpcode = i.code?) :
    builder.pushVerify.bytes = (Script.verified (front ++ [i])).bytes := by
  cases i with
  | push data => simp [pushVerify, last, Instruction.code?, Script.verified, written]
  | small number =>
    have other : ∀ opcode ∈ [Opcode.equal, .numEqual, .checkSig, .checkMultiSig],
        (Instruction.small number).code? ≠ some opcode.byte := by
      clear written last
      revert number
      decide
    simp only [List.forall_mem_cons, List.not_mem_nil, false_implies, implies_true, and_true] at other
    simp [pushVerify, last, other, Script.verified, written]
  | op opcode =>
    cases opcode <;>
      simp [pushVerify, last, Instruction.code?, Script.verified, written, replaceLast, Opcode.byte,
        Opcode.verifying?, Instruction.bytes]

/-- Bytes that are taken up are verified as the script is that they were written from. -/
theorem bytes_pushVerify_ofBytes {script : Script} (short : script.IsShort) :
    (ofBytes script.bytes).pushVerify.bytes = script.verified.bytes := by
  have last := lastOpcode_ofBytes short
  rcases List.eq_nil_or_concat' script with rfl | ⟨front, i, rfl⟩
  · rw [pushVerify, last]
    rfl
  · rw [List.getLast?_concat, Option.bind_some] at last
    exact bytes_pushVerify rfl last

end Builder

end LockScript
