import LockScript.LockTime

/-! # Lock times in combination

A transaction has one lock time and each input one sequence, so a witness that needs both a height
and a time for the same one of them can never be used.
-/

namespace LockScript

/-- Which kinds of lock are needed. -/
structure LockKinds where
  /-- An `older` with a number of blocks. -/
  olderHeight : Bool
  /-- An `older` with an interval of time. -/
  olderTime : Bool
  /-- An `after` with a block height. -/
  afterHeight : Bool
  /-- An `after` with a time. -/
  afterTime : Bool
  deriving DecidableEq, Repr

namespace LockKinds

/-- No lock. -/
def free : LockKinds := ⟨false, false, false, false⟩

/-- The kind of an absolute lock. -/
def ofAbsolute (lock : AbsoluteLock) : LockKinds :=
  { free with afterHeight := lock.isHeight, afterTime := lock.isTime }

/-- The kind of a relative lock. -/
def ofRelative (lock : RelativeLock) : LockKinds :=
  { free with olderHeight := lock.isHeight, olderTime := lock.isTime }

/-- The kinds of either. -/
def union (a b : LockKinds) : LockKinds :=
  ⟨a.olderHeight || b.olderHeight, a.olderTime || b.olderTime, a.afterHeight || b.afterHeight,
    a.afterTime || b.afterTime⟩

/-- Whether both a height and a time are needed for one lock. -/
def isMixed (kinds : LockKinds) : Bool :=
  (kinds.olderHeight && kinds.olderTime) || (kinds.afterHeight && kinds.afterTime)

/-- Whether one side needs a height and the other a time for one lock. -/
def conflicts (a b : LockKinds) : Bool :=
  (a.olderHeight && b.olderTime) || (a.olderTime && b.olderHeight) ||
    (a.afterTime && b.afterHeight) || (a.afterHeight && b.afterTime)

/-- The number of a combination, with the kinds as bits from the lowest. -/
def index (kinds : LockKinds) : Nat :=
  kinds.olderHeight.toNat + 2 * kinds.olderTime.toNat + 4 * kinds.afterHeight.toNat +
    8 * kinds.afterTime.toNat

/-- The combination with a number. -/
def ofIndex (index : Nat) : LockKinds :=
  ⟨index.testBit 0, index.testBit 1, index.testBit 2, index.testBit 3⟩

/-- All sixteen combinations, by number. -/
def all : List LockKinds :=
  (List.range 16).map ofIndex

theorem ofIndex_index (kinds : LockKinds) : ofIndex kinds.index = kinds := by
  rcases kinds with ⟨_ | _, _ | _, _ | _, _ | _⟩ <;> rfl

theorem index_lt (kinds : LockKinds) : kinds.index < 16 := by
  rcases kinds with ⟨_ | _, _ | _, _ | _, _ | _⟩ <;> decide

end LockKinds

/-- The kinds of lock in a tree, and whether two of them that conflict may be needed together. -/
structure LockUse where
  kinds : LockKinds
  mixed : Bool
  deriving DecidableEq, Repr

namespace LockUse

/-- No lock. -/
def free : LockUse := ⟨.free, false⟩

/-- The uses of the children of a threshold. Children are needed together if `k` is more than one.
-/
def threshold (k : Nat) (items : List LockUse) : LockUse :=
  items.foldl (fun seen x =>
    ⟨seen.kinds.union x.kinds,
      seen.mixed || (k > 1 && seen.kinds.conflicts x.kinds) || x.mixed⟩) free

/-- Both are needed. -/
def and (a b : LockUse) : LockUse := threshold 2 [a, b]

/-- One of them is needed. -/
def or (a b : LockUse) : LockUse := threshold 1 [a, b]

end LockUse

/-- A set of combinations of lock kinds, one bit for each; the bit is the number of the combination.
-/
structure LockSet where
  bits : BitVec 16
  deriving DecidableEq, Repr

namespace LockSet

/-- Whether a combination is in the set. -/
def contains (set : LockSet) (kinds : LockKinds) : Bool :=
  set.bits.getLsbD kinds.index

/-- No combination: there is no witness that a valid transaction could hold. -/
def empty : LockSet := ⟨0⟩

/-- Only the combination that needs no lock. -/
def free : LockSet := ⟨1⟩

/-- The set of one combination. -/
def single (kinds : LockKinds) : LockSet := ⟨1#16 <<< kinds.index⟩

/-- The combinations of either set. -/
def union (a b : LockSet) : LockSet := ⟨a.bits ||| b.bits⟩

/-- The combinations in the set, by number. -/
def toList (set : LockSet) : List LockKinds :=
  LockKinds.all.filter set.contains

/-- Every way to need one combination of each set together, unless it is mixed. -/
def join (a b : LockSet) : LockSet :=
  let right := b.toList
  a.toList.foldl (fun joined x =>
    right.foldl (fun joined y =>
      let both := x.union y
      if both.isMixed then joined else joined.union (single both)) joined) empty

/-- Whether the set has a member. -/
def isInhabited (set : LockSet) : Bool :=
  set != empty

end LockSet

/-- The combinations of locks with which a fragment can be satisfied, and dissatisfied. -/
structure LockPaths where
  sat : LockSet
  dissat : LockSet
  deriving DecidableEq, Repr

namespace LockPaths

/-- A leaf that needs no lock. -/
def leaf (dissatisfiable : Bool) : LockPaths :=
  ⟨.free, if dissatisfiable then .free else .empty⟩

/-- A leaf that is a lock. -/
def lock (kinds : LockKinds) : LockPaths :=
  ⟨.single kinds, .empty⟩

/-- Extends by one child the sets that are reached with each number of satisfied children. -/
def countStep (byCount : List LockSet) (x : LockPaths) : List LockSet :=
  List.zipWith LockSet.union
    (byCount.map (·.join x.dissat) ++ [.empty]) (.empty :: byCount.map (·.join x.sat))

/-- The sets that are reached with 0, 1, … satisfied children. -/
def byCount (items : List LockPaths) : List LockSet :=
  items.foldl countStep [.free]

/-- Exactly `k` children satisfied and the others dissatisfied; or none satisfied. -/
def threshold (k : Nat) (items : List LockPaths) : LockPaths :=
  let sets := byCount items
  ⟨sets.getD k .empty, sets.getD 0 .empty⟩

end LockPaths

end LockScript
