import Mathlib.Data.List.Forall2
import Mathlib.Data.List.GetD
import LockScript.Resource.Locks
import LockScript.Satisfaction.Material

/-! # Locks that go together

No transaction meets a height and a time for one lock, so the locks that it meets are among those of a
combination that is not mixed. The sets of combinations that are kept for a condition hold one with no
other kinds than these, for every choice of branches that the transaction can make.
-/

namespace LockScript

namespace LockKinds

variable {a b allowed : LockKinds}

/-- Only kinds that are allowed are needed. -/
def Within (kinds allowed : LockKinds) : Prop :=
  kinds.union allowed = allowed

theorem union_assoc (a b c : LockKinds) : (a.union b).union c = a.union (b.union c) := by
  simp [union, Bool.or_assoc]

theorem within_free : free.Within allowed := by
  simp [Within, free, union]

theorem Within.union (first : a.Within allowed) (second : b.Within allowed) :
    (a.union b).Within allowed := by
  rw [Within, union_assoc, second, first]

theorem within_iff : a.Within allowed ↔ (a.olderHeight = true → allowed.olderHeight = true) ∧
    (a.olderTime = true → allowed.olderTime = true) ∧ (a.afterHeight = true → allowed.afterHeight = true) ∧
    (a.afterTime = true → allowed.afterTime = true) := by
  obtain ⟨olderHeight, olderTime, afterHeight, afterTime⟩ := allowed
  simp [Within, LockKinds.union]

/-- Combinations are needed together only where each of them is allowed. -/
theorem within_union : (a.union b).Within allowed ↔ a.Within allowed ∧ b.Within allowed := by
  simp only [within_iff, LockKinds.union, Bool.or_eq_true, or_imp]
  tauto

theorem Within.refl (a : LockKinds) : a.Within a :=
  within_iff.mpr ⟨id, id, id, id⟩

theorem index_injective (same : a.index = b.index) : a = b := by
  rw [← ofIndex_index a, same, ofIndex_index]

theorem Within.not_mixed (within : a.Within allowed) (unmixed : allowed.isMixed = false) :
    a.isMixed = false := by
  rw [← within] at unmixed
  simp only [isMixed, LockKinds.union, Bool.or_eq_false_iff, Bool.and_eq_false_imp] at unmixed ⊢
  grind

end LockKinds

/-- Material that meets no height together with a time for one lock. -/
structure Material.Consistent {κ : Type} (material : Material κ) : Prop where
  older : ∀ lock lock', material.meetsOlder lock = true → material.meetsOlder lock' = true →
    lock.isTime = lock'.isTime
  after : ∀ lock lock', material.meetsAfter lock = true → material.meetsAfter lock' = true →
    lock.isTime = lock'.isTime

/-- The kinds of all locks that are met make no mixed combination. -/
theorem Material.Consistent.exists_allowed {κ : Type} {material : Material κ}
    (consistent : material.Consistent) : ∃ allowed : LockKinds, allowed.isMixed = false ∧
      (∀ lock, material.meetsOlder lock = true → (LockKinds.ofRelative lock).Within allowed) ∧
      ∀ lock, material.meetsAfter lock = true → (LockKinds.ofAbsolute lock).Within allowed := by
  have one {α : Type} {met isTime : α → Bool}
      (same : ∀ lock lock', met lock = true → met lock' = true → isTime lock = isTime lock') :
      ∃ time, ∀ lock, met lock = true → isTime lock = time := by
    by_cases some : ∃ lock, met lock = true
    · obtain ⟨lock, isMet⟩ := some
      exact ⟨isTime lock, fun other isMet' => same other lock isMet' isMet⟩
    · exact ⟨true, fun lock isMet => absurd ⟨lock, isMet⟩ some⟩
  obtain ⟨olderTime, older⟩ := one consistent.older
  obtain ⟨afterTime, after⟩ := one consistent.after
  refine ⟨⟨!olderTime, olderTime, !afterTime, afterTime⟩, ?_, fun lock met => ?_, fun lock met => ?_⟩
  · cases olderTime <;> cases afterTime <;> rfl
  · rw [← older lock met]
    simp [LockKinds.Within, LockKinds.union, LockKinds.ofRelative, LockKinds.free,
      RelativeLock.isHeight]
  · have height : lock.isHeight = !afterTime := by
      rw [← after lock met, AbsoluteLock.isTime, Bool.not_not]
    simp [LockKinds.Within, LockKinds.union, LockKinds.ofAbsolute, LockKinds.free, height,
      after lock met]

namespace LockSet

variable {a b s : LockSet} {kinds first second allowed : LockKinds}

theorem contains_union : (a.union b).contains kinds = (a.contains kinds || b.contains kinds) :=
  BitVec.getLsbD_or

@[simp] theorem contains_empty : (empty : LockSet).contains kinds = false := by
  simp [empty, contains]

/-- A set is known by its members. -/
theorem eq_of_contains (same : ∀ kinds, a.contains kinds = b.contains kinds) : a = b := by
  refine congrArg mk (BitVec.eq_of_getLsbD_eq fun i inside => ?_)
  have index : (LockKinds.ofIndex i).index = i := by
    revert i
    decide
  have bits := same (.ofIndex i)
  rwa [contains, contains, index] at bits

theorem free_eq_single : free = single .free :=
  rfl

theorem union_empty (s : LockSet) : s.union empty = s :=
  congrArg mk BitVec.or_zero

theorem contains_single (kinds : LockKinds) : (single kinds).contains kinds = true := by
  rcases kinds with ⟨_ | _, _ | _, _ | _, _ | _⟩ <;> rfl

theorem mem_toList : kinds ∈ s.toList ↔ s.contains kinds = true := by
  rw [toList, List.mem_filter, and_iff_right_iff_imp]
  intro _
  rw [← kinds.ofIndex_index]
  exact List.mem_map_of_mem (List.mem_range.mpr kinds.index_lt)

/-- A fold that only adds to a set holds what it started with and what each item adds. -/
private theorem contains_foldl {α : Type} {f : LockSet → α → LockSet} {items : List α}
    (keeps : ∀ set x, set.contains kinds = true → (f set x).contains kinds = true)
    (found : s.contains kinds = true ∨ ∃ x ∈ items, ∀ set, (f set x).contains kinds = true) :
    (items.foldl f s).contains kinds = true := by
  induction items generalizing s with
  | nil => exact found.resolve_right nofun
  | cons x items ih =>
    refine ih ?_
    obtain start | ⟨y, member, adds⟩ := found
    · exact .inl (keeps s x start)
    · rcases List.mem_cons.mp member with rfl | member
      · exact .inl (adds s)
      · exact .inr ⟨y, member, adds⟩

theorem contains_join (left : a.contains first = true) (right : b.contains second = true)
    (unmixed : (first.union second).isMixed = false) :
    (a.join b).contains (first.union second) = true := by
  have keeps (x : LockKinds) (set : LockSet) (y : LockKinds)
      (found : set.contains (first.union second) = true) :
      (if (x.union y).isMixed then set else set.union (single (x.union y))).contains
        (first.union second) = true := by
    split
    · exact found
    · rw [contains_union, found, Bool.true_or]
  refine contains_foldl (fun set x found => contains_foldl (keeps x) (.inl found))
    (.inr ⟨first, mem_toList.mpr left, fun set => contains_foldl (keeps first) (.inr ?_)⟩)
  refine ⟨second, mem_toList.mpr right, fun set => ?_⟩
  rw [if_neg (Bool.eq_false_iff.mp unmixed), contains_union, contains_single, Bool.or_true]

theorem eq_of_contains_single (found : (single first).contains kinds = true) : kinds = first := by
  rw [contains, single, BitVec.getLsbD_shiftLeft, BitVec.getLsbD_one] at found
  simp only [Bool.and_eq_true, decide_eq_true_eq, Bool.not_eq_true', decide_eq_false_iff_not] at found
  exact LockKinds.index_injective (by omega)

/-- What is in a set built by a fold was in the set from the start or came with an item. -/
private theorem exists_of_contains_foldl {α : Type} {f : LockSet → α → LockSet} {items : List α} {P : α → Prop}
    (adds : ∀ set x, (f set x).contains kinds = true → set.contains kinds = true ∨ P x)
    (found : (items.foldl f s).contains kinds = true) : s.contains kinds = true ∨ ∃ x ∈ items, P x := by
  induction items generalizing s with
  | nil => exact .inl found
  | cons x items ih =>
    obtain before | ⟨y, member, holds⟩ := ih found
    · exact (adds s x before).imp_right fun holds => ⟨x, List.mem_cons_self, holds⟩
    · exact .inr ⟨y, List.mem_cons_of_mem _ member, holds⟩

/-- All that is in a join needs one combination of each set together, and is not mixed. -/
theorem exists_of_contains_join (found : (a.join b).contains kinds = true) :
    kinds.isMixed = false ∧ ∃ first second, a.contains first = true ∧ b.contains second = true ∧
      kinds = first.union second := by
  have adds (x : LockKinds) (set : LockSet) (y : LockKinds)
      (found : (if (x.union y).isMixed then set else set.union (single (x.union y))).contains kinds = true) :
      set.contains kinds = true ∨ kinds.isMixed = false ∧ kinds = x.union y := by
    split at found
    · exact .inl found
    next unmixed =>
      rw [contains_union, Bool.or_eq_true] at found
      refine found.imp_right fun found => ?_
      obtain rfl := eq_of_contains_single found
      exact ⟨Bool.eq_false_iff.mpr unmixed, rfl⟩
  have start : (empty : LockSet).contains kinds ≠ true := by simp
  obtain ⟨first, memberA, second, memberB, unmixed, same⟩ := (exists_of_contains_foldl
    (P := fun x => ∃ y ∈ b.toList, kinds.isMixed = false ∧ kinds = x.union y)
    (fun set x => exists_of_contains_foldl (adds x)) found).resolve_left start
  exact ⟨unmixed, first, second, mem_toList.mp memberA, mem_toList.mp memberB, same⟩

/-- Some combination in the set needs no other kinds than those allowed. -/
def Allows (set : LockSet) (allowed : LockKinds) : Prop :=
  ∃ kinds, set.contains kinds = true ∧ kinds.Within allowed

theorem allows_free : free.Allows allowed :=
  ⟨.free, rfl, LockKinds.within_free⟩

theorem allows_single (within : kinds.Within allowed) : (single kinds).Allows allowed :=
  ⟨kinds, contains_single kinds, within⟩

/-- What needs no lock is always allowed. -/
theorem Allows.of_free (allows : s.Allows .free) : s.Allows allowed := by
  obtain ⟨kinds, found, within⟩ := allows
  have none : kinds = .free := by
    rw [← within]
    simp [LockKinds.union, LockKinds.free]
  exact ⟨kinds, found, none ▸ LockKinds.within_free⟩

theorem Allows.union_left (allows : a.Allows allowed) : (a.union b).Allows allowed := by
  obtain ⟨kinds, found, within⟩ := allows
  exact ⟨kinds, by rw [contains_union, found, Bool.true_or], within⟩

theorem Allows.union_right (allows : b.Allows allowed) : (a.union b).Allows allowed := by
  obtain ⟨kinds, found, within⟩ := allows
  exact ⟨kinds, by rw [contains_union, found, Bool.or_true], within⟩

theorem Allows.join (first : a.Allows allowed) (second : b.Allows allowed)
    (unmixed : allowed.isMixed = false) : (a.join b).Allows allowed := by
  obtain ⟨kinds, found, within⟩ := first
  obtain ⟨kinds', found', within'⟩ := second
  have both := within.union within'
  exact ⟨_, contains_join found found' (both.not_mixed unmixed), both⟩

theorem not_allows_empty : ¬(empty : LockSet).Allows allowed := by
  rintro ⟨kinds, found, _⟩
  simp at found

theorem allows_single_iff : (single kinds).Allows allowed ↔ kinds.Within allowed := by
  refine ⟨fun ⟨other, found, within⟩ => ?_, allows_single⟩
  rwa [eq_of_contains_single found] at within

theorem allows_union_iff : (a.union b).Allows allowed ↔ a.Allows allowed ∨ b.Allows allowed := by
  refine ⟨fun ⟨kinds, found, within⟩ => ?_, fun either => either.elim .union_left .union_right⟩
  rw [contains_union, Bool.or_eq_true] at found
  exact found.imp (⟨kinds, ·, within⟩) (⟨kinds, ·, within⟩)

theorem allows_join_iff (unmixed : allowed.isMixed = false) :
    (a.join b).Allows allowed ↔ a.Allows allowed ∧ b.Allows allowed := by
  refine ⟨fun ⟨kinds, found, within⟩ => ?_, fun ⟨first, second⟩ => first.join second unmixed⟩
  obtain ⟨_, first, second, foundA, foundB, rfl⟩ := exists_of_contains_join found
  obtain ⟨withinA, withinB⟩ := LockKinds.within_union.mp within
  exact ⟨⟨first, foundA, withinA⟩, ⟨second, foundB, withinB⟩⟩

/-- Whatever is in the set can be met by one transaction. -/
def Unmixed (set : LockSet) : Prop :=
  ∀ kinds, set.contains kinds = true → kinds.isMixed = false

theorem unmixed_empty : (empty : LockSet).Unmixed := by
  intro kinds found
  simp at found

theorem unmixed_single (unmixed : kinds.isMixed = false) : (single kinds).Unmixed :=
  fun _ found => eq_of_contains_single found ▸ unmixed

theorem unmixed_free : free.Unmixed := by
  rw [free_eq_single]
  exact unmixed_single rfl

theorem unmixed_join (a b : LockSet) : (a.join b).Unmixed :=
  fun _ found => (exists_of_contains_join found).1

theorem Unmixed.union (first : a.Unmixed) (second : b.Unmixed) : (a.union b).Unmixed := by
  intro kinds found
  rw [contains_union, Bool.or_eq_true] at found
  exact found.elim (first kinds) (second kinds)

theorem exists_of_isInhabited (inhabited : s.isInhabited = true) : ∃ kinds, s.contains kinds = true := by
  rw [LockSet.isInhabited, bne_iff_ne] at inhabited
  by_contra none
  simp only [not_exists, Bool.not_eq_true] at none
  exact inhabited (eq_of_contains fun kinds => (none kinds).trans contains_empty.symm)

/-- What can be needed at all can be needed by a transaction that meets no other kinds. -/
theorem Unmixed.exists_allows (unmixed : s.Unmixed) (inhabited : s.isInhabited = true) :
    ∃ allowed : LockKinds, allowed.isMixed = false ∧ s.Allows allowed := by
  obtain ⟨kinds, found⟩ := exists_of_isInhabited inhabited
  exact ⟨kinds, unmixed kinds found, kinds, found, .refl kinds⟩

theorem Allows.isInhabited (allows : s.Allows allowed) : s.isInhabited = true := by
  obtain ⟨kinds, found, _⟩ := allows
  rw [LockSet.isInhabited, bne_iff_ne]
  rintro rfl
  simp at found

end LockSet

namespace LockPaths

variable {x : LockPaths} {sets : List LockSet} {count : Nat} {allowed : LockKinds}

/-- The combinations for one of the two answers. -/
def pick (x : LockPaths) (answer : Bool) : LockSet :=
  if answer then x.sat else x.dissat

private theorem getD_zipWith_union {left right : List LockSet} (same : left.length = right.length)
    (count : Nat) : (List.zipWith LockSet.union left right).getD count .empty =
      (left.getD count .empty).union (right.getD count .empty) := by
  rcases Nat.lt_or_ge count left.length with inside | outside
  · rw [List.getD_eq_getElem _ _ (by simpa [← same] using inside), List.getElem_zipWith,
      List.getD_eq_getElem _ _ inside, List.getD_eq_getElem _ _ (same ▸ inside)]
  · rw [List.getD_eq_default _ _ (by simp [← same, outside]), List.getD_eq_default _ _ outside,
      List.getD_eq_default _ _ (same ▸ outside), LockSet.union_empty]

/-- Behind each number of satisfied children is that number without the new child, or one less with it. -/
theorem getD_countStep (sets : List LockSet) (x : LockPaths) (count : Nat) :
    (countStep sets x).getD count .empty = ((sets.getD count .empty).join x.dissat).union
      (match count with
        | 0 => .empty
        | before + 1 => (sets.getD before .empty).join x.sat) := by
  -- A join with the empty set is empty, so the default is mapped to itself.
  have joined (set : LockSet) (count : Nat) : (sets.map (LockSet.join · set)).getD count .empty =
      (sets.getD count .empty).join set :=
    List.getD_map sets .empty (LockSet.join · set)
  have padded : (sets.map (LockSet.join · x.dissat) ++ [LockSet.empty]).getD count .empty =
      (sets.map (LockSet.join · x.dissat)).getD count .empty := by
    grind
  rw [countStep, getD_zipWith_union (by simp), padded, joined]
  cases count with
  | zero => rfl
  | succ before => rw [List.getD_cons_succ, joined]

/-- Another child that is satisfied counts, and one that is dissatisfied does not. -/
theorem allows_countStep_iff (unmixed : allowed.isMixed = false) :
    ((countStep sets x).getD count .empty).Allows allowed ↔ ∃ (before : Nat) (answer : Bool),
      count = before + answer.toNat ∧ (sets.getD before .empty).Allows allowed ∧
        (x.pick answer).Allows allowed := by
  rw [getD_countStep, LockSet.allows_union_iff, LockSet.allows_join_iff unmixed]
  constructor
  · rintro (⟨start, own⟩ | taken)
    · exact ⟨count, false, rfl, start, own⟩
    · cases count with
      | zero => exact absurd taken LockSet.not_allows_empty
      | succ before => exact ⟨before, true, rfl, (LockSet.allows_join_iff unmixed).mp taken⟩
  · rintro ⟨before, answer, rfl, start, own⟩
    cases answer with
    | false => exact .inl ⟨start, own⟩
    | true => exact .inr (start.join own unmixed)

/-- With so many children satisfied as are marked, some combination is allowed if each child has one. -/
theorem allows_byCount (unmixed : allowed.isMixed = false) {items : List LockPaths} {marks : List Bool}
    (each : List.Forall₂ (fun x mark => (pick x mark).Allows allowed) items marks) :
    ((byCount items).getD (marks.countP id) .empty).Allows allowed := by
  have fold {sets : List LockSet} {count : Nat} (before : (sets.getD count .empty).Allows allowed) :
      ((items.foldl countStep sets).getD (count + marks.countP id) .empty).Allows allowed := by
    induction each generalizing sets count with
    | nil => exact before
    | @cons x mark items marks head _ ih =>
      have step := ih ((allows_countStep_iff unmixed).mpr ⟨count, mark, rfl, before, head⟩)
      rw [List.countP_cons, Nat.add_comm (marks.countP id), ← Nat.add_assoc]
      cases mark <;> exact step
  have none : (([.free] : List LockSet).getD 0 .empty).Allows allowed := LockSet.allows_free
  rw [← Nat.zero_add (marks.countP id)]
  exact fold none

/-- Where some combination is allowed with so many children satisfied, there are as many children
that have one. -/
theorem exists_of_allows_byCount (unmixed : allowed.isMixed = false) {items : List LockPaths}
    (allows : ((byCount items).getD count .empty).Allows allowed) : ∃ marks : List Bool,
      marks.countP id = count ∧ List.Forall₂ (fun x mark => (pick x mark).Allows allowed) items marks := by
  have fold (sets : List LockSet) (found : ((items.foldl countStep sets).getD count .empty).Allows allowed) :
      ∃ (before : Nat) (marks : List Bool), before + marks.countP id = count ∧
        (sets.getD before .empty).Allows allowed ∧
        List.Forall₂ (fun x mark => (pick x mark).Allows allowed) items marks := by
    clear allows
    induction items generalizing sets with
    | nil => exact ⟨count, [], rfl, found, .nil⟩
    | cons x items ih =>
      obtain ⟨_, marks, rfl, reached, each⟩ := ih (countStep sets x) found
      obtain ⟨before, answer, rfl, start, own⟩ := (allows_countStep_iff unmixed).mp reached
      refine ⟨before, answer :: marks, ?_, start, .cons own each⟩
      cases answer <;> simp +arith
  obtain ⟨before, marks, same, start, each⟩ := fold [.free] allows
  -- With no child yet, nothing but a count of 0 is reached.
  obtain rfl : before = 0 := by
    by_contra nonzero
    obtain ⟨n, rfl⟩ := Nat.exists_eq_succ_of_ne_zero nonzero
    exact LockSet.not_allows_empty start
  exact ⟨marks, by omega, each⟩

theorem allows_byCount_iff (unmixed : allowed.isMixed = false) {items : List LockPaths} :
    ((byCount items).getD count .empty).Allows allowed ↔ ∃ marks : List Bool,
      marks.countP id = count ∧ List.Forall₂ (fun x mark => (pick x mark).Allows allowed) items marks :=
  ⟨exists_of_allows_byCount unmixed, fun ⟨_, same, each⟩ => same ▸ allows_byCount unmixed each⟩

/-- The sets for each count are joins, or nothing. -/
theorem unmixed_byCount (items : List LockPaths) (count : Nat) :
    ((byCount items).getD count .empty).Unmixed := by
  rw [byCount]
  rcases List.eq_nil_or_concat items with rfl | ⟨rest, x, rfl⟩
  · cases count with
    | zero => exact LockSet.unmixed_free
    | succ => exact LockSet.unmixed_empty
  · rw [List.concat_eq_append, List.foldl_append, List.foldl_cons, List.foldl_nil, getD_countStep]
    refine (LockSet.unmixed_join _ _).union ?_
    cases count with
    | zero => exact LockSet.unmixed_empty
    | succ => exact LockSet.unmixed_join _ _

end LockPaths

end LockScript
