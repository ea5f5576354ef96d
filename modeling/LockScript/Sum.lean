/-! # Sums over lists

Sizes and weights are sums of one measure over the items of a list. -/

namespace LockScript

variable {α β : Type}

/-- The sum of a measure over listed items. -/
def sumOf (measure : α → Nat) : List α → Nat
  | [] => 0
  | x :: rest => measure x + sumOf measure rest

theorem sumOf_append (measure : α → Nat) (first second : List α) :
    sumOf measure (first ++ second) = sumOf measure first + sumOf measure second := by
  induction first with
  | nil => simp [sumOf]
  | cons x rest ih => simp [sumOf, ih, Nat.add_assoc]

theorem sumOf_map (measure : β → Nat) (f : α → β) (items : List α) :
    sumOf measure (items.map f) = sumOf (fun x => measure (f x)) items := by
  induction items with
  | nil => rfl
  | cons x rest ih => simp [sumOf, ih]

theorem le_sumOf (measure : α → Nat) {x : α} {items : List α} (member : x ∈ items) :
    measure x ≤ sumOf measure items := by
  induction member with
  | head rest => simp [sumOf]
  | tail y _ ih => exact Nat.le_trans ih (by simp [sumOf])

end LockScript
