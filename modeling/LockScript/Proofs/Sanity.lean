import LockScript.Proofs.Typing
import LockScript.Sanity

/-! # Sane conditions

A condition is sane if none of the five rules is broken. Keys that are listed in strictly ascending
order do not repeat.
-/

namespace LockScript

/-- Items in strictly ascending order are all different. -/
theorem hasRepetition_eq_false {α : Type} [Ord α] {items : List α}
    (ascending : items.Pairwise fun a b => compare a b = .lt) : hasRepetition items = false := by
  have sorted : (items.mergeSort fun a b => (compare a b).isLE) = items :=
    List.mergeSort_of_pairwise (ascending.imp fun less => by rw [less]; rfl)
  rw [hasRepetition, sorted]
  clear sorted
  induction ascending with
  | nil => rfl
  | @cons first rest before _ ih =>
    cases rest with
    | nil => rfl
    | cons second others =>
      simp only [List.tail_cons, List.zip_cons_cons, List.any_cons] at ih ⊢
      rw [ih, before second List.mem_cons_self]
      rfl

namespace Typed

variable {κ δ : Type} [KeyLike κ] {context : Context} {t : Typed κ δ}

/-- What it takes to be sane. -/
theorem checkSanity_eq_ok : t.checkSanity context .none = .ok () ↔
    t.requiresSignature = true ∧ t.isNonMalleable context = true ∧ t.withinLimits context = true ∧
      t.hasRepeatedKeys = false ∧ t.hasMixedLocks = false := by
  unfold checkSanity Waivers.none
  cases t.requiresSignature <;> cases t.isNonMalleable context <;> cases t.withinLimits context <;>
    cases t.hasRepeatedKeys <;> cases t.hasMixedLocks <;> simp

end Typed

end LockScript
