import LockScript.Bytes

/-! # Script instructions

A script is a list of instructions: pushes of data, pushes of small numbers, and opcodes. Its bytes
are written last, so that nothing that looks at instructions can mistake data for an opcode.
-/

namespace LockScript

/-- The opcodes, other than pushes, that conditions are built from. -/
inductive Opcode where
  | if
  | notIf
  | else
  | endIf
  | verify
  | toAltStack
  | fromAltStack
  | ifDup
  | dup
  | swap
  | size
  | equal
  | equalVerify
  | zeroNotEqual
  | add
  | boolAnd
  | boolOr
  | numEqual
  | numEqualVerify
  | ripemd160
  | sha256
  | hash160
  | hash256
  | checkSig
  | checkSigVerify
  | checkMultiSig
  | checkMultiSigVerify
  | checkLockTimeVerify
  | checkSequenceVerify
  | checkSigAdd
  deriving DecidableEq, Repr

namespace Opcode

/-- The byte of an opcode. -/
def byte : Opcode → UInt8
  | «if» => 0x63
  | notIf => 0x64
  | «else» => 0x67
  | endIf => 0x68
  | verify => 0x69
  | toAltStack => 0x6b
  | fromAltStack => 0x6c
  | ifDup => 0x73
  | dup => 0x76
  | swap => 0x7c
  | size => 0x82
  | equal => 0x87
  | equalVerify => 0x88
  | zeroNotEqual => 0x92
  | add => 0x93
  | boolAnd => 0x9a
  | boolOr => 0x9b
  | numEqual => 0x9c
  | numEqualVerify => 0x9d
  | ripemd160 => 0xa6
  | sha256 => 0xa8
  | hash160 => 0xa9
  | hash256 => 0xaa
  | checkSig => 0xac
  | checkSigVerify => 0xad
  | checkMultiSig => 0xae
  | checkMultiSigVerify => 0xaf
  | checkLockTimeVerify => 0xb1
  | checkSequenceVerify => 0xb2
  | checkSigAdd => 0xba

/-- The opcode that does the same and then verifies the result, for those that have one. -/
def verifying? : Opcode → Option Opcode
  | equal => some equalVerify
  | numEqual => some numEqualVerify
  | checkSig => some checkSigVerify
  | checkMultiSig => some checkMultiSigVerify
  | _ => none

end Opcode

/-- The shortest number encoding: least significant byte first, and the top bit of the last byte is
a sign, so that a number that fills it needs a byte more. Zero is not a case of its own here. -/
def numberBytes (number : Nat) : Bytes :=
  if number < 0x80 then [UInt8.ofNat number]
  else UInt8.ofNat (number % 256) :: numberBytes (number / 256)
decreasing_by omega

/-- One step of a script. -/
inductive Instruction where
  /-- Pushes a string of bytes. -/
  | push (data : Bytes)
  /-- Pushes a number from 0 to 16 without any data. -/
  | small (number : Fin 17)
  | op (opcode : Opcode)
  deriving DecidableEq, Repr

namespace Instruction

/-- The shortest push of a number. -/
def ofNumber (number : Nat) : Instruction :=
  if isSmall : number < 17 then small ⟨number, isSmall⟩ else push (numberBytes number)

/-- The bytes of an instruction. Data up to 75 bytes is pushed by its length. -/
def bytes : Instruction → Bytes
  | push data =>
    let length := data.length
    (if length < 0x4c then [UInt8.ofNat length]
      else if length < 0x100 then [0x4c, UInt8.ofNat length]
      else if length < 0x10000 then 0x4d :: Bytes.littleEndian 2 length
      else 0x4e :: Bytes.littleEndian 4 length) ++ data
  | small number => [if number = 0 then 0 else UInt8.ofNat (0x50 + number.val)]
  | op opcode => [opcode.byte]

end Instruction

/-- A script. -/
abbrev Script := List Instruction

namespace Script

/-- The bytes of a script. -/
def bytes (script : Script) : Bytes :=
  script.flatMap Instruction.bytes

/-- The push of a witness element in a scriptSig. The empty element and 1 need no data. -/
def pushElement (element : Bytes) : Instruction :=
  if element = [] then .small 0 else if element = [1] then .small 1 else .push element

/-- The scriptSig that pushes a witness. -/
def ofWitness (witness : List Bytes) : Script :=
  witness.map pushElement

/-- The same script, which fails in addition unless the top of the stack is then true, and drops it.
The last opcode is replaced if it has a verifying form. -/
def verified (script : Script) : Script :=
  match script.getLast? with
  | some (.op opcode) =>
    match opcode.verifying? with
    | some verifying => script.dropLast ++ [.op verifying]
    | none => script ++ [.op .verify]
  | _ => script ++ [.op .verify]

end Script

end LockScript
