/-! # Thresholds

A choice of `k` out of a list of items, where `1 ≤ k ≤ n` holds and `n` may be capped.
-/

namespace LockScript

/-- A `k` or `n` out of range, with the cap on `n` if there is one. -/
structure ThresholdError where
  k : Nat
  n : Nat
  cap : Option Nat
  deriving DecidableEq, Repr

namespace ThresholdError

/-- The reason in words: an empty list first, then `k`, then the cap. -/
def message (error : ThresholdError) : String :=
  if error.n = 0 then "threshold has no sub-items"
  else if error.k = 0 then "threshold «k» must be at least 1"
  else if error.k > error.n then s!"threshold «{error.k}-of-{error.n}» has k larger than n"
  else match error.cap with
    | some cap => s!"threshold «{error.k}-of-{error.n}» exceeds the limit of {cap} items"
    | none => s!"invalid threshold «{error.k}-of-{error.n}»"

end ThresholdError

/-- A choice of `k` of the listed items; `cap` bounds their number. -/
structure Threshold (α : Type) (cap : Option Nat) where
  k : Nat
  items : List α
  k_pos : 0 < k
  k_le : k ≤ items.length
  capped : ∀ most ∈ cap, items.length ≤ most

namespace Threshold

variable {α β : Type} {cap : Option Nat}

/-- Accepts a list if `1 ≤ k ≤ n` and `n` is within the cap. -/
def ofList (k : Nat) (items : List α) : Except ThresholdError (Threshold α cap) :=
  if valid : 0 < k ∧ k ≤ items.length ∧ ∀ most ∈ cap, items.length ≤ most then
    .ok ⟨k, items, valid.1, valid.2.1, valid.2.2⟩
  else .error ⟨k, items.length, cap⟩

/-- The number of items. -/
def n (threshold : Threshold α cap) : Nat :=
  threshold.items.length

/-- Puts other items in the place of these, one for one. -/
def map (f : α → β) (threshold : Threshold α cap) : Threshold β cap where
  k := threshold.k
  items := threshold.items.map f
  k_pos := threshold.k_pos
  k_le := by simpa using threshold.k_le
  capped := by simpa using threshold.capped

/-- Puts the results found at `positions` in the place of the items, one for one. -/
def ofPositions? (threshold : Threshold α cap) (positions : List Nat) (results : Array β) :
    Option (Threshold β cap) :=
  let found := positions.filterMap (results[·]?)
  if exact : found.length = threshold.items.length then
    some ⟨threshold.k, found, threshold.k_pos, exact ▸ threshold.k_le, exact ▸ threshold.capped⟩
  else none

/-- Thresholds are ordered by `k`, then item by item. -/
instance [Ord α] : Ord (Threshold α cap) where
  compare a b := (compare a.k b.k).then (compare a.items b.items)

end Threshold

end LockScript
