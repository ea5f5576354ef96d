import Mathlib.Data.Nat.Basic
import LockScript.Proofs.Estimate

/-! # Numbers on the stack

Script keeps numbers as byte strings: least significant byte first, with the sign in the top bit of
the last byte, and nothing at all for zero. Arithmetic opcodes read numbers of at most five bytes and
write the shortest encoding. An element is true unless it encodes zero, with either sign.
-/

namespace LockScript

namespace Bytes

/-- The number that bytes stand for, least significant byte first. -/
def magnitude : Bytes → Nat
  | [] => 0
  | low :: rest => low.toNat + 256 * magnitude rest

/-- The number that an element encodes. -/
def signedValue (element : Bytes) : Int :=
  match element.getLast? with
  | none => 0
  | some last =>
    if 0x80 ≤ last.toNat then -(element.magnitude - 0x80 * 256 ^ (element.length - 1) : Int)
    else element.magnitude

/-- Reads a number of at most five bytes. -/
def readNumber (element : Bytes) : Option Int :=
  if element.length ≤ 5 then some element.signedValue else none

/-- Writes a number in its shortest encoding. -/
def writeNumber (number : Int) : Bytes :=
  if number = 0 then []
  else if 0 < number then numberBytes number.toNat
  else
    let magnitude := numberBytes number.natAbs
    magnitude.dropLast ++ (magnitude.getLast?.map (· ||| 0x80)).toList

/-- Whether an element is true: some byte is not zero, where the sign alone does not count. -/
def isTrue (element : Bytes) : Bool :=
  match element.getLast? with
  | none => false
  | some last => element.dropLast.any (· != 0) || (last != 0 && last != 0x80)

/-- Writes a truth value. -/
def writeBool (value : Bool) : Bytes :=
  if value then [1] else []

end Bytes

theorem numberBytes_eq (number : Nat) : numberBytes number =
    if number < 0x80 then [UInt8.ofNat number]
    else UInt8.ofNat (number % 256) :: numberBytes (number / 256) := by
  rw [numberBytes]

theorem numberBytes_ne_nil (number : Nat) : numberBytes number ≠ [] := by
  rw [numberBytes_eq]
  split <;> simp

theorem magnitude_numberBytes (number : Nat) : (numberBytes number).magnitude = number := by
  induction number using Nat.strong_induction_on with
  | _ number ih =>
    rw [numberBytes_eq]
    split
    next small =>
      simp [Bytes.magnitude]
      omega
    next large =>
      rw [Bytes.magnitude, ih (number / 256) (by omega)]
      simp
      omega

/-- A byte holds eight bits of a number, and the last one its sign as well. -/
theorem length_numberBytes_le (number width : Nat) :
    (numberBytes number).length ≤ width + 1 ↔ number < 2 ^ (8 * width + 7) := by
  induction width generalizing number with
  | zero =>
    have more := List.length_pos_iff.mpr (numberBytes_ne_nil (number / 256))
    rw [numberBytes_eq]
    split
    next small => exact iff_of_true (Nat.le_refl 1) small
    next large =>
      rw [List.length_cons]
      exact iff_of_false (by omega) large
  | succ width ih =>
    have scaled : 2 ^ (8 * (width + 1) + 7) = 256 * 2 ^ (8 * width + 7) := by
      rw [show 8 * (width + 1) + 7 = 8 + (8 * width + 7) by omega, Nat.pow_add]
    have positive := Nat.two_pow_pos (8 * width)
    rw [numberBytes_eq, scaled]
    split
    next small =>
      rw [Nat.pow_add]
      exact iff_of_true (by simp) (by omega)
    next large =>
      rw [List.length_cons, Nat.add_le_add_iff_right, ih, Nat.div_lt_iff_lt_mul (by decide), Nat.mul_comm]

theorem length_numberBytes_le_five (number : Nat) :
    (numberBytes number).length ≤ 5 ↔ number < 2 ^ 39 :=
  length_numberBytes_le number 4

/-- The last byte of the encoding of a number has its top bit clear. -/
theorem getLast?_numberBytes (number : Nat) :
    ∃ last, (numberBytes number).getLast? = some last ∧ last.toNat < 0x80 := by
  induction number using Nat.strong_induction_on with
  | _ number ih =>
    rw [numberBytes_eq]
    split
    next small => exact ⟨_, rfl, by simp; omega⟩
    next large =>
      rw [List.getLast?_cons_of_ne_nil (numberBytes_ne_nil _)]
      exact ih (number / 256) (by omega)

namespace Bytes

theorem isTrue_cons (first : UInt8) {rest : Bytes} (nonempty : rest ≠ []) :
    isTrue (first :: rest) = (first != 0 || isTrue rest) := by
  unfold isTrue
  rw [List.getLast?_cons_of_ne_nil nonempty, List.dropLast_cons_of_ne_nil nonempty]
  cases last : rest.getLast? with
  | none => exact absurd (List.getLast?_eq_none_iff.mp last) nonempty
  | some byte => simp [Bool.or_assoc]

theorem isTrue_numberBytes (number : Nat) : isTrue (numberBytes number) = decide (number ≠ 0) := by
  induction number using Nat.strong_induction_on with
  | _ number ih =>
    rw [numberBytes_eq]
    split
    next small =>
      have same : UInt8.ofNat number = 0 ↔ number = 0 := by
        rw [← UInt8.toNat_inj]
        simp
        omega
      have unsigned : UInt8.ofNat number ≠ 0x80 := by
        intro sign
        rw [← UInt8.toNat_inj] at sign
        simp at sign
        omega
      rw [Bool.eq_iff_iff]
      simp [isTrue, same, unsigned]
    next large =>
      have low : UInt8.ofNat (number % 256) = 0 ↔ number % 256 = 0 := by
        rw [← UInt8.toNat_inj]
        simp
      rw [isTrue_cons _ (numberBytes_ne_nil _), ih (number / 256) (by omega), Bool.eq_iff_iff]
      simp [low]
      omega

@[simp] theorem writeNumber_zero : writeNumber 0 = [] := rfl

theorem writeNumber_of_pos {number : Nat} (positive : 0 < number) :
    writeNumber number = numberBytes number := by
  unfold writeNumber
  rw [if_neg (by omega), if_pos (by omega), Int.toNat_natCast]

theorem length_writeNumber_le (number width : Nat) :
    (writeNumber number).length ≤ width + 1 ↔ number < 2 ^ (8 * width + 7) := by
  rcases Nat.eq_zero_or_pos number with rfl | positive
  · exact iff_of_true (Nat.zero_le _) (Nat.two_pow_pos _)
  · rw [writeNumber_of_pos positive, length_numberBytes_le]

@[simp] theorem isTrue_writeNumber (number : Nat) :
    isTrue (writeNumber number) = decide (number ≠ 0) := by
  rcases Nat.eq_zero_or_pos number with rfl | positive
  · rfl
  · rw [writeNumber_of_pos positive, isTrue_numberBytes]

/-- Reading gives back what was written, unless that takes more than five bytes. -/
theorem readNumber_writeNumber (number : Nat) :
    readNumber (writeNumber number) = if number < 2 ^ 39 then some (number : Int) else none := by
  rcases Nat.eq_zero_or_pos number with rfl | positive
  · rfl
  · rw [writeNumber_of_pos positive]
    obtain ⟨last, found, clear⟩ := getLast?_numberBytes number
    have value : signedValue (numberBytes number) = number := by
      rw [signedValue, found, magnitude_numberBytes]
      exact if_neg (by omega)
    simp only [readNumber, value, length_numberBytes_le_five]

theorem magnitude_writeNumber (number : Nat) : (writeNumber number).magnitude = number := by
  rcases Nat.eq_zero_or_pos number with rfl | positive
  · rfl
  · rw [writeNumber_of_pos positive, magnitude_numberBytes]

theorem writeNumber_inj {a b : Nat} : writeNumber a = writeNumber b ↔ a = b := by
  refine ⟨fun same => ?_, fun same => by rw [same]⟩
  rw [← magnitude_writeNumber a, same, magnitude_writeNumber]

theorem writeBool_eq (value : Bool) : writeBool value = writeNumber (value.toNat : Nat) := by
  cases value with
  | false => rfl
  | true =>
    rw [Bool.toNat_true, writeNumber_of_pos Nat.one_pos, numberBytes_eq]
    rfl

theorem writeBool_inj {a b : Bool} : writeBool a = writeBool b ↔ a = b := by
  cases a <;> cases b <;> decide

@[simp] theorem isTrue_writeBool (value : Bool) : isTrue (writeBool value) = value := by
  cases value <;> rfl

theorem magnitude_concat (front : Bytes) (last : UInt8) :
    magnitude (front ++ [last]) = magnitude front + 256 ^ front.length * last.toNat := by
  induction front with
  | nil => simp [magnitude]
  | cons first rest ih =>
    rw [List.cons_append, magnitude, ih, magnitude, List.length_cons, Nat.pow_succ, Nat.mul_add,
      ← Nat.add_assoc, ← Nat.mul_assoc, Nat.mul_comm 256 (256 ^ _)]

theorem magnitude_eq_zero (element : Bytes) :
    magnitude element = 0 ↔ element.any (· != 0) = false := by
  induction element with
  | nil => simp [magnitude]
  | cons first rest ih =>
    have zero : first.toNat = 0 ↔ first = 0 := by
      rw [← UInt8.toNat_inj]
      rfl
    rw [magnitude, List.any_cons, Bool.or_eq_false_iff, ← ih, bne_eq_false_iff_eq, ← zero]
    omega

/-- The sign is the top bit of the last byte, and all other bits make up the amount. -/
theorem signedValue_concat (front : Bytes) (last : UInt8) :
    let amount := magnitude front + 256 ^ front.length * (last.toNat % 0x80)
    signedValue (front ++ [last]) = if 0x80 ≤ last.toNat then -(amount : Int) else amount := by
  simp only [signedValue, List.getLast?_concat, magnitude_concat, List.length_append,
    List.length_singleton, Nat.add_sub_cancel]
  have bound := last.toNat_lt
  split
  next negative =>
    obtain ⟨low, split⟩ : ∃ low, last.toNat = low + 0x80 := ⟨_, (Nat.sub_add_cancel negative).symm⟩
    have same : (low + 0x80) % 0x80 = low := by omega
    rw [split, same, Nat.mul_add, Nat.mul_comm _ 0x80]
    push_cast
    omega
  next positive => rw [Nat.mod_eq_of_lt (Nat.not_le.mp positive)]

/-- The only number that is not true is zero, with either sign. -/
theorem signedValue_eq_zero (element : Bytes) : element.signedValue = 0 ↔ element.isTrue = false := by
  obtain rfl | ⟨front, last, rfl⟩ := element.eq_nil_or_concat
  · decide
  · have power : 256 ^ front.length ≠ 0 := (Nat.pow_pos (by decide)).ne'
    have unsigned : last.toNat % 0x80 = 0 ↔ last = 0 ∨ last = 0x80 := by
      have bound := last.toNat_lt
      rw [← UInt8.toNat_inj, ← UInt8.toNat_inj]
      change _ ↔ last.toNat = 0 ∨ last.toNat = 128
      omega
    have amount : magnitude front + 256 ^ front.length * (last.toNat % 0x80) = 0 ↔
        isTrue (front ++ [last]) = false := by
      rw [isTrue, List.getLast?_concat]
      simp only [List.dropLast_concat, Bool.or_eq_false_iff, ← magnitude_eq_zero, Bool.and_eq_false_iff,
        bne_eq_false_iff_eq, ← unsigned, Nat.add_eq_zero_iff, Nat.mul_eq_zero, power, false_or]
    rw [List.concat_eq_append, signedValue_concat, ← amount]
    split <;> omega

/-- A number of either sign is read back. -/
theorem signedValue_writeNumber (number : Int) : signedValue (writeNumber number) = number := by
  have unsigned (number : Nat) : ∃ front last, numberBytes number = front ++ [last] ∧
      last.toNat < 0x80 ∧ magnitude front + 256 ^ front.length * last.toNat = number := by
    obtain ⟨last, found, clear⟩ := getLast?_numberBytes number
    obtain ⟨front, shape⟩ := List.getLast?_eq_some_iff.mp found
    refine ⟨front, last, shape, clear, ?_⟩
    rw [← magnitude_concat, ← shape, magnitude_numberBytes]
  rcases lt_trichotomy number 0 with negative | rfl | positive
  · obtain ⟨front, last, shape, clear, amount⟩ := unsigned number.natAbs
    have signed : (last ||| 0x80).toNat = last.toNat + 0x80 := by
      rw [UInt8.toNat_or, Nat.or_comm]
      exact (Nat.two_pow_add_eq_or_of_lt (i := 7) clear 1).symm.trans (Nat.add_comm _ _)
    rw [writeNumber, if_neg (by omega), if_neg (by omega), shape]
    simp only [List.dropLast_concat, List.getLast?_concat, Option.map_some, Option.toList_some]
    rw [signedValue_concat, signed, if_pos (by omega), Nat.add_mod_right, Nat.mod_eq_of_lt clear, amount]
    omega
  · rfl
  · obtain ⟨front, last, shape, clear, amount⟩ := unsigned number.toNat
    rw [writeNumber, if_neg (by omega), if_pos positive, shape, signedValue_concat,
      if_neg (by omega), Nat.mod_eq_of_lt clear, amount]
    omega

theorem signedValue_of_readNumber {element : Bytes} {number : Int}
    (read : element.readNumber = some number) : element.signedValue = number := by
  rw [readNumber] at read
  split at read
  · exact Option.some.inj read
  · cases read

/-- What is read is zero if and only if the element is not true. -/
theorem isTrue_of_readNumber {element : Bytes} {number : Int}
    (read : element.readNumber = some number) : element.isTrue = (number != 0) := by
  have zero := element.signedValue_eq_zero
  rw [signedValue_of_readNumber read] at zero
  cases value : element.isTrue <;> simp_all

end Bytes

end LockScript
