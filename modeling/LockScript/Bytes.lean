/-! # Byte strings

Scripts, keys, digests and witness elements are all byte strings. Here are their hexadecimal text
and the length prefix that transactions put in front of variable-length data.
-/

namespace LockScript

/-- A string of bytes, first byte first. -/
abbrev Bytes := List UInt8

namespace Bytes

/-- Two lowercase hexadecimal digits per byte. -/
def hex (bytes : Bytes) : String :=
  bytes.foldl (fun text byte =>
    (text.push (Nat.digitChar (byte.toNat / 16))).push (Nat.digitChar (byte.toNat % 16))) ""

/-- The value of a hexadecimal digit of either case. -/
def digitValue? (digit : Char) : Option Nat :=
  if '0' ≤ digit ∧ digit ≤ '9' then some (digit.toNat - '0'.toNat)
  else if 'a' ≤ digit ∧ digit ≤ 'f' then some (digit.toNat - 'a'.toNat + 10)
  else if 'A' ≤ digit ∧ digit ≤ 'F' then some (digit.toNat - 'A'.toNat + 10)
  else none

/-- Reads pairs of digits; `reversed` holds the bytes already read, last one first. -/
def ofDigits? (reversed : Bytes) : List Char → Option Bytes
  | [] => some reversed.reverse
  | [_] => none
  | high :: low :: rest =>
    match digitValue? high, digitValue? low with
    | some h, some l => ofDigits? (UInt8.ofNat (16 * h + l) :: reversed) rest
    | _, _ => none

/-- The bytes that a hexadecimal text stands for, if it has an even number of digits and nothing
else. -/
def ofHex? (text : String) : Option Bytes :=
  ofDigits? [] text.toList

/-- A byte string of known width. -/
def ofWidth? (width : Nat) (bytes : Bytes) : Option (Vector UInt8 width) :=
  if exact : bytes.length = width then some ⟨bytes.toArray, by simp [exact]⟩ else none

/-- The low `width` bytes of a number, least significant byte first. -/
def littleEndian (width : Nat) (number : Nat) : Bytes :=
  (List.range width).map fun place => UInt8.ofNat (number >>> (8 * place))

/-- The low `width` bytes of a number, most significant byte first. -/
def bigEndian (width : Nat) (number : Nat) : Bytes :=
  (littleEndian width number).reverse

/-- The shortest of the four length prefixes that a transaction allows for `length`. -/
def compactSize (length : Nat) : Bytes :=
  if length < 0xfd then [UInt8.ofNat length]
  else if length < 0x10000 then 0xfd :: littleEndian 2 length
  else if length < 0x100000000 then 0xfe :: littleEndian 4 length
  else 0xff :: littleEndian 8 length

/-- The number of bytes in a length prefix. -/
def compactSizeLength (length : Nat) : Nat :=
  if length < 0xfd then 1 else if length < 0x10000 then 3 else if length < 0x100000000 then 5 else 9

theorem length_littleEndian (width number : Nat) : (littleEndian width number).length = width := by
  simp [littleEndian]

theorem length_compactSize (length : Nat) :
    (compactSize length).length = compactSizeLength length := by
  unfold compactSize compactSizeLength
  split
  · rfl
  · split
    · simp [length_littleEndian]
    · split <;> simp [length_littleEndian]

end Bytes

end LockScript
