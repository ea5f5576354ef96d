import Mathlib.Data.ENat.Lattice
import Mathlib.Algebra.Order.BigOperators.Group.List
import Mathlib.Data.List.MinMax
import Mathlib.Data.List.Perm.Subperm
import Mathlib.Data.List.Sort

/-! # Choosing some of many

Several rules of the library choose `k` of `n` things, each by sorting or by leaving out one at a time,
and mean the choice that is best as a whole. Two arguments show that it is. Where a choice says yes to
some and no to others, and both have a cost, the best one is found in any order in which it never helps
to exchange a yes for a later one. Where only what is chosen counts, it is enough that nothing chosen is
larger than anything left out. To run a rule on listed things, its sort by merging is replaced by one that
inserts.

Costs may be infinite, for what cannot be had.
-/

namespace LockScript

section Sorting

variable {α κ : Type}

/-- Merging sorts as inserting does, and keeps equals in order as well. Inserting recurses on the list, so that
its result can be evaluated. -/
theorem mergeSort_eq_insertionSort {le : α → α → Bool}
    (trans : ∀ a b c, le a b = true → le b c = true → le a c = true)
    (total : ∀ a b, (le a b || le b a) = true) (items : List α) :
    items.mergeSort le = items.insertionSort fun a b => le a b = true := by
  induction items with
  | nil => exact List.mergeSort_nil
  | cons x items ih =>
    obtain ⟨before, after, sorted, others, above⟩ := List.mergeSort_cons trans total x items
    have ordered := List.pairwise_mergeSort trans total (x :: items)
    rw [sorted, List.pairwise_append, List.pairwise_cons] at ordered
    have less : ∀ y ∈ before, (decide ¬le x y = true) = true := by simpa using above
    rw [List.insertionSort_cons_eq_take_drop, ← ih, others, sorted, List.takeWhile_append_of_pos less,
      List.dropWhile_append_of_pos less]
    cases after with
    | nil => simp
    | cons y after => simp [ordered.2.1.1 y List.mem_cons_self]

theorem isLE_total {cmp : κ → κ → Ordering} [Std.OrientedCmp cmp] (a b : κ) :
    ((cmp a b).isLE || (cmp b a).isLE) = true := by
  have swapped : cmp b a = (cmp a b).swap := Std.OrientedCmp.eq_swap
  rw [swapped]
  cases cmp a b <;> rfl

theorem mergeSort_isLE (key : α → κ) (cmp : κ → κ → Ordering) [Std.TransCmp cmp] (items : List α) :
    (items.mergeSort fun a b => (cmp (key a) (key b)).isLE) =
      items.insertionSort fun a b => (cmp (key a) (key b)).isLE = true :=
  mergeSort_eq_insertionSort (fun _ _ _ => Std.TransCmp.isLE_trans) (fun _ _ => isLE_total _ _) items

end Sorting

section Exchange

variable {α : Type} {cost : α → Bool → ℕ∞} {x : α} {order : List α} {k : Nat}

/-- What it costs to say yes to the first `k` and no to the others. -/
private def leading (cost : α → Bool → ℕ∞) (k : Nat) (order : List α) : ℕ∞ :=
  ((order.take k).map (cost · true)).sum + ((order.drop k).map (cost · false)).sum

private theorem leading_zero (order : List α) :
    leading cost 0 order = (order.map (cost · false)).sum := by
  simp [leading]

private theorem leading_succ (x : α) (order : List α) (k : Nat) :
    leading cost (k + 1) (x :: order) = cost x true + leading cost k order := by
  simp [leading, add_assoc]

/-- Saying yes to the first one and to `k` more costs no more than saying no to it and yes to `k + 1`. -/
private theorem leading_exchange
    (first : ∀ y ∈ order, cost x true + cost y false ≤ cost x false + cost y true)
    (enough : k < order.length) :
    cost x true + leading cost k order ≤ cost x false + leading cost (k + 1) order := by
  induction order generalizing k with
  | nil => cases enough
  | cons y order ih =>
    obtain ⟨exchange, rest⟩ := List.forall_mem_cons.mp first
    rw [leading_succ]
    cases k with
    | zero =>
      rw [leading_zero, leading_zero, List.map_cons, List.sum_cons, ← add_assoc, ← add_assoc]
      exact add_le_add_left exchange _
    | succ k =>
      rw [leading_succ, add_left_comm, add_left_comm (cost x false)]
      exact add_le_add_right (ih rest (Nat.lt_of_succ_lt_succ enough)) _

/-- In an order where exchanging a yes for a later one never helps, the first `k` are the best choice
of `k`. -/
private theorem leading_le
    (sorted : order.Pairwise fun x y => cost x true + cost y false ≤ cost x false + cost y true)
    (chosen : α → Bool) :
    leading cost (order.countP chosen) order ≤ (order.map fun x => cost x (chosen x)).sum := by
  induction order with
  | nil => simp [leading]
  | cons x order ih =>
    obtain ⟨first, rest⟩ := List.pairwise_cons.mp sorted
    rw [List.map_cons, List.sum_cons]
    cases yes : chosen x with
    | true =>
      rw [List.countP_cons_of_pos yes, leading_succ]
      exact add_le_add_right (ih rest) _
    | false =>
      rw [List.countP_cons_of_neg (Bool.eq_false_iff.mp yes)]
      refine le_trans ?_ (add_le_add_right (ih rest) _)
      cases count : order.countP chosen with
      | zero => simp [leading_zero]
      | succ k =>
        rw [leading_succ]
        exact leading_exchange first (by have := List.countP_le_length (p := chosen) (l := order); omega)

/-- Where yes is said to the first `k`, no is said to the others. -/
private theorem sum_contains_take [BEq α] [LawfulBEq α] (distinct : order.Nodup) :
    (order.map fun x => cost x ((order.take k).contains x)).sum = leading cost k order := by
  have parts := distinct
  rw [← List.take_append_drop k order, List.nodup_append] at parts
  have early : (order.take k).map (fun x => cost x ((order.take k).contains x)) =
      (order.take k).map (cost · true) :=
    List.map_congr_left fun x member => by rw [List.contains_iff_mem.mpr member]
  have late : (order.drop k).map (fun x => cost x ((order.take k).contains x)) =
      (order.drop k).map (cost · false) :=
    List.map_congr_left fun x member => by
      have left : x ∉ order.take k := fun taken => parts.2.2 x taken x member rfl
      rw [Bool.eq_false_iff.mpr fun taken => left (List.contains_iff_mem.mp taken)]
  rw [leading, ← early, ← late, ← List.sum_append, ← List.map_append, List.take_append_drop]

/-- What the answers that are marked for listed things cost together. -/
def markedCost (cost : α → Bool → ℕ∞) (marks : List Bool) (items : List α) : ℕ∞ :=
  (List.zipWith (fun mark x => cost x mark) marks items).sum

variable {items : List α} {marks : List Bool} {positions : List Nat}

/-- What it costs to give an answer at a position. -/
private def costAt (cost : α → Bool → ℕ∞) (items : List α) (i : Nat) (answer : Bool) : ℕ∞ :=
  items[i]?.elim 0 (cost · answer)

private theorem markedCost_map (permutes : positions.Perm (List.range items.length))
    (chosen : Nat → Bool) : markedCost cost ((List.range items.length).map chosen) items =
      (positions.map fun i => costAt cost items i (chosen i)).sum := by
  rw [markedCost, (permutes.map _).sum_eq]
  congr 1
  refine List.ext_getElem (by simp) fun i _ inside => ?_
  have inside : i < items.length := by simpa using inside
  simp [costAt, inside]

/-- If positions are ordered such that exchanging a yes for a later one never helps, then no choice of
as many costs less than the first ones. -/
theorem markedCost_take_le (permutes : positions.Perm (List.range items.length))
    (sorted : positions.Pairwise fun i j => ∃ x y, items[i]? = some x ∧ items[j]? = some y ∧
      cost x true + cost y false ≤ cost x false + cost y true) (exact : marks.length = items.length) :
    markedCost cost ((List.range items.length).map (positions.take (marks.countP id)).contains) items ≤
      markedCost cost marks items := by
  have distinct : positions.Nodup := permutes.nodup_iff.mpr List.nodup_range
  have marked : marks = (List.range items.length).map (marks.getD · false) :=
    List.ext_getElem (by simpa using exact) (by simp +contextual)
  have count : positions.countP (marks.getD · false) = marks.countP id := by
    rw [permutes.countP_eq]
    conv_rhs => rw [marked, List.countP_map]
    rfl
  have located := sorted.imp (S := fun i j => costAt cost items i true + costAt cost items j false ≤
      costAt cost items i false + costAt cost items j true) (by
    rintro i j ⟨x, y, foundX, foundY, exchange⟩
    simpa [costAt, foundX, foundY] using exchange)
  have best := leading_le located (marks.getD · false)
  rw [count, ← markedCost_map permutes, ← marked] at best
  rw [markedCost_map permutes]
  exact le_of_eq_of_le (sum_contains_take distinct) best

end Exchange

section Separation

variable {kept left others : List Nat}

/-- How much numbers are short of a bound makes up for their sum. -/
private theorem length_mul_le (bound : Nat) (numbers : List Nat) :
    numbers.length * bound ≤ numbers.sum + (numbers.map (bound - ·)).sum := by
  induction numbers with
  | nil => simp
  | cons n numbers ih =>
    rw [List.length_cons, List.sum_cons, List.map_cons, List.sum_cons, Nat.succ_mul]
    omega

private theorem sum_add_short {bound : Nat} {numbers : List Nat} (low : ∀ n ∈ numbers, n ≤ bound) :
    numbers.sum + (numbers.map (bound - ·)).sum = numbers.length * bound := by
  induction numbers with
  | nil => simp
  | cons n numbers ih =>
    obtain ⟨first, rest⟩ := List.forall_mem_cons.mp low
    have below := ih rest
    rw [List.length_cons, List.sum_cons, List.map_cons, List.sum_cons, Nat.succ_mul]
    omega

/-- If nothing kept is larger than what is left out, then no choice of as many has a smaller sum. -/
theorem sum_le_of_separated (separated : ∀ a ∈ kept, ∀ b ∈ left, a ≤ b)
    (among : others.Subperm (kept ++ left)) (count : others.length = kept.length) :
    kept.sum ≤ others.sum := by
  -- The largest number kept is a bound between both parts, and only what is kept falls short of it.
  let bound := kept.foldr max ⊥
  have low : ∀ n ∈ kept, n ≤ bound := fun n member => List.le_max_of_le member le_rfl
  have high : left.map (bound - ·) = left.map fun _ => 0 := by
    refine List.map_congr_left fun b member => Nat.sub_eq_zero_of_le ?_
    exact List.max_le_of_forall_le kept b fun a own => separated a own b member
  have short : (others.map (bound - ·)).sum ≤ (kept.map (bound - ·)).sum := by
    obtain ⟨chosen, permutes, sublist⟩ := among
    rw [← (permutes.map (bound - ·)).sum_eq]
    refine ((sublist.map (bound - ·)).sum_le_sum fun _ _ => Nat.zero_le _).trans ?_
    rw [List.map_append, List.sum_append, high]
    simp
  have whole := sum_add_short low
  have least := length_mul_le bound others
  rw [count] at least
  omega

end Separation

end LockScript
