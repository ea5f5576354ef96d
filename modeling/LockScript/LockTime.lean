/-! # Lock times

The arguments of `after` and `older`. Zero is refused for both, since a script uses the pushed
number as its result; the upper bounds keep the number in the range that the opcodes enforce.
-/

namespace LockScript

/-- A lock time out of range, with the number that was refused. -/
inductive LockTimeError where
  | absolute (value : Nat)
  | relative (value : Nat)
  deriving DecidableEq, Repr

/-- A lock until a block height or a time of day, in the encoding of a transaction's lock time. -/
structure AbsoluteLock where
  value : Nat
  pos : 1 ≤ value
  bounded : value ≤ 0x80000000
  deriving DecidableEq

namespace AbsoluteLock

/-- Numbers below this one are block heights, the others are seconds since 1970. -/
def timeThreshold : Nat := 500000000

/-- Accepts 1 to 2³¹. -/
def ofConsensus (value : Nat) : Except LockTimeError AbsoluteLock :=
  if valid : 1 ≤ value ∧ value ≤ 0x80000000 then .ok ⟨value, valid.1, valid.2⟩
  else .error (.absolute value)

/-- Whether the lock waits for a block height. -/
def isHeight (lock : AbsoluteLock) : Bool :=
  lock.value < timeThreshold

/-- Whether the lock waits for a time. -/
def isTime (lock : AbsoluteLock) : Bool :=
  !lock.isHeight

/-- Whether a transaction with this lock time meets the lock: both of one unit, and late enough. -/
def metBy (lock : AbsoluteLock) (lockTime : Nat) : Bool :=
  lock.isHeight == decide (lockTime < timeThreshold) && lock.value ≤ lockTime

instance : Ord AbsoluteLock where
  compare a b := compare a.value b.value

end AbsoluteLock

/-- What a relative lock counts. -/
inductive RelativeUnit where
  | blocks
  /-- Intervals of 512 seconds. -/
  | time
  deriving DecidableEq, Repr

/-- An input's sequence number, in which bits 31 and 22 and the low 16 bits have a meaning. -/
abbrev Sequence := Nat

namespace Sequence

/-- The unit and count of a relative lock; a number with bit 31 set is none. -/
def relativeLock? (sequence : Sequence) : Option (RelativeUnit × Nat) :=
  if Nat.testBit sequence 31 then none
  else some (if Nat.testBit sequence 22 then .time else .blocks, sequence % 0x10000)

end Sequence

/-- A lock until the spent output has reached an age, in the encoding of an input's sequence. -/
structure RelativeLock where
  value : Nat
  pos : 0 < value
  bounded : value < 0x80000000
  deriving DecidableEq

namespace RelativeLock

/-- Accepts every nonzero sequence number in which bit 31 is clear. -/
def ofConsensus (value : Nat) : Except LockTimeError RelativeLock :=
  if valid : 0 < value ∧ value < 0x80000000 then .ok ⟨value, valid.1, valid.2⟩
  else .error (.relative value)

/-- A lock of so many blocks. -/
def ofBlocks (count : UInt16) : Except LockTimeError RelativeLock :=
  ofConsensus count.toNat

/-- A lock of so many intervals of 512 seconds; bit 22 alone is a valid number. -/
def ofIntervals (count : UInt16) : Except LockTimeError RelativeLock :=
  ofConsensus (0x400000 + count.toNat)

/-- Whether the lock counts intervals of time. -/
def isTime (lock : RelativeLock) : Bool :=
  Nat.testBit lock.value 22

/-- Whether the lock counts blocks. -/
def isHeight (lock : RelativeLock) : Bool :=
  !lock.isTime

/-- What the lock counts, and how many of it. -/
def interval (lock : RelativeLock) : RelativeUnit × Nat :=
  (if lock.isTime then .time else .blocks, lock.value % 0x10000)

/-- Whether an input with this sequence meets the lock: both of one unit, and old enough. -/
def metBy (lock : RelativeLock) (sequence : Sequence) : Bool :=
  match sequence.relativeLock? with
  | some (unit, count) => lock.interval.1 == unit && lock.interval.2 ≤ count
  | none => false

instance : Ord RelativeLock where
  compare a b := compare a.value b.value

end RelativeLock

namespace LockTimeError

/-- The reason in words. -/
def message : LockTimeError → String
  | absolute 0 => "absolute locktime «0» is not allowed; the minimum is 1"
  | absolute value => s!"absolute locktime «{value}» exceeds the maximum of 2147483648"
  | relative 0 => "relative locktime «0» is not allowed; the minimum is 1"
  | relative value => s!"value «{value}» has the BIP68 disable flag set"

end LockTimeError

end LockScript
