import Mathlib.Algebra.Order.BigOperators.Group.List
import Mathlib.Data.List.Perm.Subperm
import LockScript.Proofs.Estimate
import LockScript.Proofs.Selection

/-! # Usages without wrap-around

Resources are counted in machine words, whose sums wrap around. Here the rules for usages are compared
with the same rules over natural numbers: as long as no number comes near the range of a word, both give
the same.
-/

namespace LockScript

open Quantity (amount)

namespace Quantity

/-- Quantities that are in an order. -/
class Ordered (ν : Type) [Quantity ν] : Prop where
  atMost_trans : ∀ a b c : ν, atMost a b = true → atMost b c = true → atMost a c = true
  atMost_total : ∀ a b : ν, (atMost a b || atMost b a) = true

instance : Ordered Nat where
  atMost_trans _ _ _ le le' := decide_eq_true (Nat.le_trans (of_decide_eq_true le) (of_decide_eq_true le'))
  atMost_total a b := Bool.or_eq_true_iff.mpr ((Nat.le_total a b).imp decide_eq_true decide_eq_true)

instance : Ordered Word where
  atMost_trans _ _ _ le le' := decide_eq_true (UInt64.le_trans (of_decide_eq_true le) (of_decide_eq_true le'))
  atMost_total a b := Bool.or_eq_true_iff.mpr ((UInt64.le_total a b).imp decide_eq_true decide_eq_true)

theorem totalOfLargest_eq {ν : Type} [Quantity ν] [Ordered ν] (count : Nat) (numbers : List ν) :
    totalOfLargest count numbers =
      total ((numbers.insertionSort fun a b => atMost b a = true).take count) := by
  rw [totalOfLargest, mergeSort_eq_insertionSort]
  · exact fun a b c ge ge' => Ordered.atMost_trans c b a ge' ge
  · exact fun a b => Ordered.atMost_total b a

theorem total_eq_sum (numbers : List Nat) : total numbers = numbers.sum :=
  rfl

theorem le_largest {numbers : List Nat} {n : Nat} (member : n ∈ numbers) : n ≤ largest numbers := by
  induction numbers with
  | nil => cases member
  | cons first rest ih =>
    change n ≤ max first (largest rest)
    rcases List.mem_cons.mp member with rfl | member
    · exact Nat.le_max_left _ _
    · exact Nat.le_trans (ih member) (Nat.le_max_right _ _)

theorem largest_le {numbers : List Nat} {bound : Nat} (bounded : ∀ n ∈ numbers, n ≤ bound) :
    largest numbers ≤ bound := by
  induction numbers with
  | nil => exact Nat.zero_le bound
  | cons first rest ih =>
    obtain ⟨head, below⟩ := List.forall_mem_cons.mp bounded
    exact Nat.max_le.mpr ⟨head, ih below⟩

theorem totalOfLargest_le (count : Nat) (numbers : List Nat) :
    totalOfLargest count numbers ≤ numbers.sum := by
  rw [totalOfLargest, total_eq_sum,
    ← (List.mergeSort_perm numbers fun a b => atMost b a).sum_nat]
  exact (List.take_sublist _ _).sum_le_sum fun _ _ => Nat.zero_le _

private theorem sum_le_sum_take {chosen numbers : List Nat} (among : chosen.Sublist numbers)
    (descending : numbers.Pairwise (· ≥ ·)) {count : Nat} (few : chosen.length ≤ count) :
    chosen.sum ≤ (numbers.take count).sum := by
  induction numbers generalizing chosen count with
  | nil =>
    rw [List.sublist_nil.mp among]
    exact Nat.zero_le _
  | cons first rest ih =>
    obtain ⟨least, descending⟩ := List.pairwise_cons.mp descending
    cases chosen with
    | nil => exact Nat.zero_le _
    | cons n others =>
      cases count with
      | zero => exact absurd few (Nat.not_succ_le_zero _)
      | succ count =>
        have below : n ≤ first ∧ others.Sublist rest := by
          rcases List.sublist_cons_iff.mp among with among | ⟨_, same, among⟩
          · exact ⟨least n (among.subset List.mem_cons_self), (List.sublist_cons_self n others).trans among⟩
          · obtain ⟨rfl, rfl⟩ := List.cons.inj same
            exact ⟨Nat.le_refl n, among⟩
        rw [List.take_succ_cons, List.sum_cons, List.sum_cons]
        exact Nat.add_le_add below.1 (ih below.2 descending (Nat.le_of_succ_le_succ few))

/-- No choice of so many numbers has a larger sum than that of the largest ones. -/
theorem sum_le_totalOfLargest {chosen numbers : List Nat} (among : chosen.Sublist numbers) {count : Nat}
    (few : chosen.length ≤ count) : chosen.sum ≤ totalOfLargest count numbers := by
  have sorted : (numbers.mergeSort fun a b => atMost b a).Pairwise (· ≥ ·) := by
    refine (List.pairwise_mergeSort ?_ ?_ numbers).imp of_decide_eq_true
    · exact fun a b c ge ge' => Ordered.atMost_trans c b a ge' ge
    · exact fun a b => Ordered.atMost_total b a
  obtain ⟨others, permutes, among⟩ := among.subperm.trans (List.mergeSort_perm numbers _).symm.subperm
  rw [totalOfLargest, total_eq_sum, ← permutes.sum_nat]
  exact sum_le_sum_take among sorted (permutes.length_eq ▸ few)

/-- The largest numbers are among those listed. -/
theorem exists_sublist_totalOfLargest {count : Nat} {numbers : List Nat} (enough : count ≤ numbers.length) :
    ∃ chosen : List Nat, chosen.Sublist numbers ∧ chosen.length = count ∧
      chosen.sum = totalOfLargest count numbers := by
  let sorted := numbers.mergeSort fun a b => atMost b a
  have permutes : sorted.Perm numbers := List.mergeSort_perm numbers _
  obtain ⟨chosen, same, among⟩ := (List.take_sublist count sorted).subperm.trans permutes.subperm
  refine ⟨chosen, among, ?_, same.sum_nat⟩
  rw [same.length_eq, List.length_take, permutes.length_eq, Nat.min_eq_left enough]

/-- In words a sum may wrap around on the way, and still is that of the natural numbers. -/
theorem amount_total (numbers : List Nat) :
    (amount (total numbers) : Word) = total (numbers.map amount) := by
  induction numbers with
  | nil => rfl
  | cons first rest ih =>
    rw [List.map_cons]
    change (amount (first + total rest) : Word) = amount first + total (rest.map amount)
    rw [LawfulQuantity.amount_add, ih]

/-- The range of a word. -/
abbrev wordRange : Nat := 2 ^ 64

theorem toNat_amount {n : Nat} (narrow : n < wordRange) : (amount n : Word).toNat = n :=
  UInt64.toNat_ofNat_of_lt' narrow

section Narrow

variable {a b : Nat} (narrowA : a < wordRange) (narrowB : b < wordRange)

include narrowA narrowB

theorem amount_le : (amount a : Word) ≤ amount b ↔ a ≤ b :=
  UInt64.ofNat_le_iff_le narrowA narrowB

theorem amount_max : (amount (max a b) : Word) = max (amount a) (amount b) := by
  change _ = if (amount a : Word) ≤ amount b then (amount b : Word) else amount a
  rw [Nat.max_def]
  simp only [amount_le narrowA narrowB]
  split <;> rfl

theorem amount_excess : (amount (excess a b : Nat) : Word) = excess (amount a) (amount b) := by
  change (amount (a - b) : Word) = if (amount b : Word) ≤ amount a then amount a - amount b else 0
  simp only [amount_le narrowB narrowA]
  split
  next le => exact UInt64.ofNat_sub le
  next less =>
    rw [Nat.sub_eq_zero_of_le (Nat.le_of_not_le less)]
    rfl

end Narrow

theorem amount_largest {numbers : List Nat} (narrow : ∀ n ∈ numbers, n < wordRange) :
    (amount (largest numbers) : Word) = largest (numbers.map amount) := by
  induction numbers with
  | nil => rfl
  | cons first rest ih =>
    obtain ⟨head, below⟩ := List.forall_mem_cons.mp narrow
    have bounded : largest rest < wordRange :=
      Nat.lt_of_le_pred (by decide) (largest_le fun n member => Nat.le_pred_of_lt (below n member))
    rw [List.map_cons]
    change (amount (max first (largest rest)) : Word) = max (amount first) (largest (rest.map amount))
    rw [amount_max head bounded, ih below]

theorem amount_totalOfLargest {count : Nat} {numbers : List Nat}
    (narrow : ∀ n ∈ numbers, n < wordRange) :
    (amount (totalOfLargest count numbers) : Word) = totalOfLargest count (numbers.map amount) := by
  rw [totalOfLargest, amount_total, List.map_take, totalOfLargest,
    List.map_mergeSort fun a member b member' => ?_]
  exact decide_eq_decide.mpr (amount_le (narrow b member') (narrow a member)).symm

end Quantity

attribute [ext] Usage

namespace Usage

variable {ν μ : Type}

/-- The same usage in other quantities. -/
def map (f : ν → μ) (usage : Usage ν) : Usage μ where
  witnessSize := f usage.witnessSize
  witnessItems := f usage.witnessItems
  scriptSigSize := f usage.scriptSigSize
  execItems := f usage.execItems
  execOpcodes := f usage.execOpcodes

/-- A usage in words. -/
abbrev toWords (usage : Usage Nat) : Usage Word :=
  usage.map amount

/-- A measure that adds up over the children of a threshold. -/
inductive Tally where
  | witnessSize
  | witnessItems
  | scriptSigSize
  | execOpcodes

/-- The measure of a usage. -/
def Tally.of : Tally → Usage ν → ν
  | witnessSize => Usage.witnessSize
  | witnessItems => Usage.witnessItems
  | scriptSigSize => Usage.scriptSigSize
  | execOpcodes => Usage.execOpcodes

/-- The usage with given measures. -/
def ofTallies (total : Tally → ν) (execItems : ν) : Usage ν :=
  ⟨total .witnessSize, total .witnessItems, total .scriptSigSize, execItems, total .execOpcodes⟩

theorem Tally.of_ofTallies (m : Tally) (total : Tally → ν) (execItems : ν) :
    m.of (ofTallies total execItems) = total m := by
  cases m <;> rfl

theorem Tally.of_map (m : Tally) (f : ν → μ) (u : Usage ν) : m.of (u.map f) = f (m.of u) := by
  cases m <;> rfl

/-- No measure is above a bound. -/
structure AtMost (usage : Usage Nat) (bound : Nat) : Prop where
  witnessSize : usage.witnessSize ≤ bound
  witnessItems : usage.witnessItems ≤ bound
  scriptSigSize : usage.scriptSigSize ≤ bound
  execItems : usage.execItems ≤ bound
  execOpcodes : usage.execOpcodes ≤ bound

variable {a b : Usage Nat} {m n shift : Nat}

theorem AtMost.of_le (within : a.AtMost n) (m : Tally) : m.of a ≤ n := by
  cases m with
  | witnessSize => exact within.witnessSize
  | witnessItems => exact within.witnessItems
  | scriptSigSize => exact within.scriptSigSize
  | execOpcodes => exact within.execOpcodes

theorem AtMost.mono (within : a.AtMost m) (le : m ≤ n) : a.AtMost n :=
  ⟨within.witnessSize.trans le, within.witnessItems.trans le, within.scriptSigSize.trans le,
    within.execItems.trans le, within.execOpcodes.trans le⟩

theorem atMost_pushes {size items push exec bound : Nat} (sizes : size ≤ bound) (counts : items ≤ bound)
    (pushes : push ≤ bound) (execs : exec ≤ bound) :
    (Usage.pushes size items push exec : Usage Nat).AtMost bound :=
  ⟨sizes, counts, pushes, execs, Nat.zero_le _⟩

theorem AtMost.followedBy (first : a.AtMost m) (second : b.AtMost n) (shift : Nat) :
    (a.followedBy b shift).AtMost (m + n + shift) where
  witnessSize := (Nat.add_le_add first.witnessSize second.witnessSize).trans (Nat.le_add_right _ _)
  witnessItems := (Nat.add_le_add first.witnessItems second.witnessItems).trans (Nat.le_add_right _ _)
  scriptSigSize := (Nat.add_le_add first.scriptSigSize second.scriptSigSize).trans (Nat.le_add_right _ _)
  execItems := by
    have above := first.execItems
    have below := second.execItems
    change max a.execItems (b.execItems + shift) ≤ _
    omega
  execOpcodes := (Nat.add_le_add first.execOpcodes second.execOpcodes).trans (Nat.le_add_right _ _)

theorem AtMost.withSelector (within : a.AtMost m) {size : Nat} (small : 1 ≤ size) :
    (a.withSelector size).AtMost (m + size) where
  witnessSize := Nat.add_le_add_right within.witnessSize size
  witnessItems := Nat.add_le_add within.witnessItems small
  scriptSigSize := Nat.add_le_add within.scriptSigSize small
  execItems := within.execItems.trans (Nat.le_add_right _ _)
  execOpcodes := within.execOpcodes.trans (Nat.le_add_right _ _)

theorem AtMost.worst (first : a.AtMost m) (second : b.AtMost m) : (a.worst b).AtMost m where
  witnessSize := Nat.max_le.mpr ⟨first.witnessSize, second.witnessSize⟩
  witnessItems := Nat.max_le.mpr ⟨first.witnessItems, second.witnessItems⟩
  scriptSigSize := Nat.max_le.mpr ⟨first.scriptSigSize, second.scriptSigSize⟩
  execItems := Nat.max_le.mpr ⟨first.execItems, second.execItems⟩
  execOpcodes := Nat.max_le.mpr ⟨first.execOpcodes, second.execOpcodes⟩

theorem toWords_followedBy (first : a.AtMost m) (second : b.AtMost n)
    (narrow : m + n + shift < Quantity.wordRange) :
    (a.followedBy b shift).toWords = a.toWords.followedBy b.toWords shift := by
  have left := first.execItems
  have right := second.execItems
  have exec : (amount (max a.execItems (b.execItems + shift)) : Word) =
      max (amount a.execItems) (amount b.execItems + amount shift) := by
    rw [Quantity.amount_max (by omega) (by omega), LawfulQuantity.amount_add]
  exact Usage.ext (LawfulQuantity.amount_add _ _) (LawfulQuantity.amount_add _ _)
    (LawfulQuantity.amount_add _ _) exec (LawfulQuantity.amount_add _ _)

theorem toWords_worst (first : a.AtMost m) (second : b.AtMost m) (narrow : m < Quantity.wordRange) :
    (a.worst b).toWords = a.toWords.worst b.toWords := by
  have below {x y : Nat} (le : x ≤ m) (le' : y ≤ m) :
      (amount (max x y) : Word) = max (amount x) (amount y) :=
    Quantity.amount_max (Nat.lt_of_le_of_lt le narrow) (Nat.lt_of_le_of_lt le' narrow)
  exact Usage.ext (below first.witnessSize second.witnessSize)
    (below first.witnessItems second.witnessItems) (below first.scriptSigSize second.scriptSigSize)
    (below first.execItems second.execItems) (below first.execOpcodes second.execOpcodes)

theorem toWords_withSelector (size : Nat) :
    (a.withSelector size).toWords = a.toWords.withSelector size :=
  Usage.ext (LawfulQuantity.amount_add _ _) (LawfulQuantity.amount_add _ _)
    (LawfulQuantity.amount_add _ _) rfl rfl

section Alternatives

variable {first second : Option (Usage Nat)}

theorem atMost_followedBy? (within : ∀ u ∈ first, u.AtMost m) (within' : ∀ u ∈ second, u.AtMost n)
    (shift : Nat) : ∀ u ∈ followedBy? first second shift, u.AtMost (m + n + shift) := by
  intro u member
  cases first <;> cases second <;> cases member
  exact (within _ rfl).followedBy (within' _ rfl) shift

theorem atMost_worst? (within : ∀ u ∈ first, u.AtMost m) (within' : ∀ u ∈ second, u.AtMost m) :
    ∀ u ∈ worst? first second, u.AtMost m := by
  intro u member
  cases first <;> cases second <;> cases member
  · exact within' _ rfl
  · exact within _ rfl
  · exact (within _ rfl).worst (within' _ rfl)

theorem atMost_withSelector {size : Nat} (within : ∀ u ∈ first, u.AtMost m) (small : 1 ≤ size) :
    ∀ u ∈ first.map (·.withSelector size), u.AtMost (m + size) := by
  intro u member
  obtain ⟨below, found, rfl⟩ := Option.map_eq_some_iff.mp member
  exact (within below found).withSelector small

theorem toWords_followedBy? (within : ∀ u ∈ first, u.AtMost m) (within' : ∀ u ∈ second, u.AtMost n)
    (narrow : m + n + shift < Quantity.wordRange) :
    (followedBy? first second shift).map toWords =
      followedBy? (first.map toWords) (second.map toWords) shift := by
  cases first <;> cases second
  case some.some a b => exact congrArg some (toWords_followedBy (within a rfl) (within' b rfl) narrow)
  all_goals rfl

theorem toWords_worst? (within : ∀ u ∈ first, u.AtMost m) (within' : ∀ u ∈ second, u.AtMost m)
    (narrow : m < Quantity.wordRange) :
    (worst? first second).map toWords = worst? (first.map toWords) (second.map toWords) := by
  cases first <;> cases second
  case some.some a b => exact congrArg some (toWords_worst (within a rfl) (within' b rfl) narrow)
  all_goals rfl

theorem toWords_withSelector? (size : Nat) :
    (first.map (·.withSelector size)).map toWords = (first.map toWords).map (·.withSelector size) := by
  cases first with
  | none => rfl
  | some a => exact congrArg some (toWords_withSelector size)

end Alternatives

section Threshold

/-- What a child adds to a measure if it is dissatisfied where that is possible. -/
def baseline [Quantity ν] (measure : Usage ν → ν) (pair : Option (Usage ν) × Option (Usage ν)) : ν :=
  match pair.2, pair.1 with
  | some d, _ => measure d
  | none, some s => measure s
  | none, none => amount 0

/-- What a child adds on top if it is satisfied instead. -/
def growth? [Quantity ν] (measure : Usage ν → ν) (pair : Option (Usage ν) × Option (Usage ν)) :
    Option ν :=
  match pair.1, pair.2 with
  | some s, some d => some (Quantity.excess (measure s) (measure d))
  | _, _ => none

theorem thresholdMeasure?_eq [Quantity ν] (measure : Usage ν → ν) (k : Nat)
    (items : List (Option (Usage ν) × Option (Usage ν))) :
    thresholdMeasure? measure k items =
      if items.any fun pair => pair.1.isNone && pair.2.isNone then none
      else
        let forced := items.countP fun pair => pair.2.isNone
        let growth := items.filterMap (growth? measure)
        if forced ≤ k ∧ k - forced ≤ growth.length then
          some (Quantity.total (items.map (baseline measure)) +
            Quantity.totalOfLargest (k - forced) growth)
        else none :=
  rfl

/-- Which usages a child lacks. -/
def lacks (pair : Option (Usage ν) × Option (Usage ν)) : Bool × Bool :=
  (pair.1.isNone, pair.2.isNone)

/-- How many children add something on top is told by which usages they lack. -/
theorem length_growth [Quantity ν] (measure : Usage ν → ν)
    (items : List (Option (Usage ν) × Option (Usage ν))) :
    (items.filterMap (growth? measure)).length =
      (items.map lacks).countP fun lacking => !lacking.1 && !lacking.2 := by
  rw [List.length_filterMap_eq_countP, List.countP_map]
  refine List.countP_congr fun pair _ => ?_
  obtain ⟨_ | s, _ | d⟩ := pair <;> exact Iff.rfl

/-- One measure of a threshold has a bound if another one has. -/
theorem exists_thresholdMeasure?_of [Quantity ν] {measure measure' : Usage ν → ν} {k : Nat}
    {items : List (Option (Usage ν) × Option (Usage ν))} {total : ν}
    (measured : thresholdMeasure? measure k items = some total) :
    ∃ total', thresholdMeasure? measure' k items = some total' := by
  rw [thresholdMeasure?_eq] at measured ⊢
  simp only [length_growth] at measured ⊢
  split at measured
  next => cases measured
  next possible =>
    split at measured
    next enough => exact ⟨_, (if_neg possible).trans (if_pos enough)⟩
    next => cases measured

/-- A threshold is bounded if each of its measures is. -/
theorem threshold?_eq_some [Quantity ν] {k : Nat} {execItems : ν}
    {items : List (Option (Usage ν) × Option (Usage ν))} {u : Usage ν} :
    threshold? k execItems items = some u ↔
      u.execItems = execItems ∧ ∀ m : Tally, thresholdMeasure? m.of k items = some (m.of u) := by
  simp only [threshold?, Option.bind_eq_bind, Option.bind_eq_some_iff, Option.pure_def, Option.some.injEq]
  constructor
  · rintro ⟨_, size, _, count, _, push, _, opcodes, rfl⟩
    refine ⟨rfl, fun m => ?_⟩
    cases m with
    | witnessSize => exact size
    | witnessItems => exact count
    | scriptSigSize => exact push
    | execOpcodes => exact opcodes
  · rintro ⟨rfl, measured⟩
    exact ⟨_, measured .witnessSize, _, measured .witnessItems, _, measured .scriptSigSize, _,
      measured .execOpcodes, rfl⟩

theorem threshold?_ofTallies [Quantity ν] {k : Nat} {items : List (Option (Usage ν) × Option (Usage ν))}
    {total : Tally → ν} (measured : ∀ m : Tally, thresholdMeasure? m.of k items = some (total m))
    (execItems : ν) : threshold? k execItems items = some (ofTallies total execItems) :=
  threshold?_eq_some.mpr ⟨rfl, fun m => by rw [m.of_ofTallies, measured m]⟩

/-- A threshold is bounded if one of its measures is. -/
theorem isSome_threshold?_eq [Quantity ν] (m : Tally) (k : Nat) (execItems : ν)
    (items : List (Option (Usage ν) × Option (Usage ν))) :
    (threshold? k execItems items).isSome = (thresholdMeasure? m.of k items).isSome := by
  rw [Bool.eq_iff_iff, Option.isSome_iff_exists, Option.isSome_iff_exists]
  constructor
  · rintro ⟨u, found⟩
    exact ⟨_, (threshold?_eq_some.mp found).2 m⟩
  · rintro ⟨total, measured⟩
    have each (n : Tally) : ∃ total, thresholdMeasure? n.of k items = some total :=
      exists_thresholdMeasure?_of measured
    choose total measured using each
    exact ⟨_, threshold?_ofTallies measured execItems⟩

variable {measure : Usage Nat → Nat} {measure' : Usage Word → Word} {k : Nat}
  {items : List (Option (Usage Nat) × Option (Usage Nat))}

/-- No child adds more than the larger of its usages. -/
theorem sum_growth_le {bounds : List Nat} (within : List.Forall₂
      (fun pair bound => (∀ u ∈ pair.1, measure u ≤ bound) ∧ ∀ u ∈ pair.2, measure u ≤ bound)
      items bounds) :
    (items.map (baseline measure)).sum + (items.filterMap (growth? measure)).sum ≤ bounds.sum := by
  induction within with
  | nil => exact Nat.le_refl 0
  | @cons pair bound items bounds head _ ih =>
    obtain ⟨sat, dissat⟩ := pair
    rw [List.map_cons, List.sum_cons, List.sum_cons]
    cases sat with
    | none =>
      rw [List.filterMap_cons_none rfl]
      cases dissat with
      | none =>
        change 0 + _ + _ ≤ _
        omega
      | some d =>
        have le : measure d ≤ bound := head.2 d rfl
        change measure d + _ + _ ≤ _
        omega
    | some s =>
      have le : measure s ≤ bound := head.1 s rfl
      cases dissat with
      | none =>
        rw [List.filterMap_cons_none rfl]
        change measure s + _ + _ ≤ _
        omega
      | some d =>
        have le' : measure d ≤ bound := head.2 d rfl
        rw [List.filterMap_cons_some (show growth? measure (some s, some d) = some _ from rfl),
          List.sum_cons]
        change measure d + _ + (measure s - measure d + _) ≤ _
        omega

theorem thresholdMeasure?_le {bounds : List Nat} (within : List.Forall₂
      (fun pair bound => (∀ u ∈ pair.1, measure u ≤ bound) ∧ ∀ u ∈ pair.2, measure u ≤ bound)
      items bounds) : ∀ total ∈ thresholdMeasure? measure k items, total ≤ bounds.sum := by
  intro total found
  rw [thresholdMeasure?_eq] at found
  split at found
  next => cases found
  next =>
    simp only at found
    split at found
    next =>
      cases found
      refine (Nat.add_le_add_left (Quantity.totalOfLargest_le _ _) _).trans ?_
      exact sum_growth_le within
    next => cases found

/-- The usage of a child for one of the two answers. -/
def forAnswer (answer : Bool) (pair : Option (Usage ν) × Option (Usage ν)) : Option (Usage ν) :=
  if answer then pair.1 else pair.2

/-- What the parts of a choice need is within the baseline and the growth of as many children as are
satisfied beyond those that have to be. -/
private theorem exists_growth_of_parts {parts : List (Bool × Nat)}
    (each : List.Forall₂ (fun pair part => ∃ u, forAnswer part.1 pair = some u ∧ part.2 ≤ measure u)
      items parts) :
    (∀ pair ∈ items, (pair.1.isNone && pair.2.isNone) = false) ∧
      ∃ chosen : List Nat, chosen.Sublist (items.filterMap (growth? measure)) ∧
        (items.countP fun pair => pair.2.isNone) + chosen.length = parts.countP Prod.fst ∧
        (parts.map Prod.snd).sum ≤ (items.map (baseline measure)).sum + chosen.sum := by
  induction each with
  | nil => exact ⟨List.forall_mem_nil _, [], .slnil, rfl, Nat.le_refl 0⟩
  | @cons pair part items parts head _ ih =>
    obtain ⟨possible, chosen, among, count, le⟩ := ih
    obtain ⟨sat, dissat⟩ := pair
    obtain ⟨mark, n⟩ := part
    obtain ⟨u, found, within⟩ := head
    simp only [List.forall_mem_cons, List.map_cons, List.sum_cons]
    cases mark with
    | false =>
      obtain rfl : dissat = some u := found
      refine ⟨⟨Bool.and_false _, possible⟩, chosen, among.trans ?_, by simpa using count, ?_⟩
      · cases sat with
        | none => exact .refl _
        | some s => exact List.sublist_cons_self _ _
      · change n + _ ≤ measure u + _ + _
        change n ≤ measure u at within
        omega
    | true =>
      obtain rfl : sat = some u := found
      change n ≤ measure u at within
      cases dissat with
      | none =>
        refine ⟨⟨rfl, possible⟩, chosen, among, ?_, ?_⟩
        · simp only [List.countP_cons, Option.isNone_none, if_true]
          omega
        · change n + _ ≤ measure u + _ + _
          omega
      | some d =>
        refine ⟨⟨rfl, possible⟩, (measure u - measure d) :: chosen, among.cons_cons _, ?_, ?_⟩
        · simp only [List.countP_cons, Option.isNone_some, List.length_cons, if_true, Bool.false_eq_true,
            if_false]
          omega
        · rw [List.sum_cons]
          change n + _ ≤ measure d + _ + _
          omega

/-- A choice of `k` children that can be satisfied is within the bound, if all others can be
dissatisfied. What each child then needs is given with its mark. -/
theorem exists_thresholdMeasure? {parts : List (Bool × Nat)}
    (each : List.Forall₂ (fun pair part => ∃ u, forAnswer part.1 pair = some u ∧ part.2 ≤ measure u)
      items parts) (exact : parts.countP Prod.fst = k) :
    ∃ total, thresholdMeasure? measure k items = some total ∧ (parts.map Prod.snd).sum ≤ total := by
  obtain ⟨possible, chosen, among, count, le⟩ := exists_growth_of_parts each
  have none : items.any (fun pair => pair.1.isNone && pair.2.isNone) = false :=
    List.any_eq_false.mpr fun pair member => Bool.eq_false_iff.mp (possible pair member)
  have length := among.length_le
  rw [thresholdMeasure?_eq]
  simp only [none, Bool.false_eq_true, if_false]
  rw [if_pos (by omega)]
  refine ⟨_, rfl, le.trans (Nat.add_le_add_left ?_ _)⟩
  exact Quantity.sum_le_totalOfLargest among (by omega)

/-- The usages of a child in words. -/
abbrev pairToWords (pair : Option (Usage Nat) × Option (Usage Nat)) :
    Option (Usage Word) × Option (Usage Word) :=
  (pair.1.map toWords, pair.2.map toWords)

theorem toWords_thresholdMeasure? (same : ∀ u, (amount (measure u) : Word) = measure' u.toWords)
    (narrow : ∀ pair ∈ items, (∀ u ∈ pair.1, measure u < Quantity.wordRange) ∧
      ∀ u ∈ pair.2, measure u < Quantity.wordRange) :
    (thresholdMeasure? measure k items).map (amount : Nat → Word) =
      thresholdMeasure? measure' k (items.map pairToWords) := by
  have base : (items.map pairToWords).map (baseline measure') =
      (items.map (baseline measure)).map amount := by
    rw [List.map_map, List.map_map]
    refine List.map_congr_left fun (sat, dissat) _ => ?_
    cases dissat <;> cases sat
    case none.none => rfl
    all_goals exact (same _).symm
  have growth : (items.map pairToWords).filterMap (growth? measure') =
      (items.filterMap (growth? measure)).map amount := by
    rw [List.filterMap_map, List.map_filterMap]
    refine List.filterMap_congr fun (sat, dissat) member => ?_
    obtain ⟨first, second⟩ := narrow _ member
    cases sat <;> cases dissat
    case some.some s d =>
      simp [growth?, ← same, Quantity.amount_excess (first s rfl) (second d rfl)]
    all_goals rfl
  have grows : ∀ n ∈ items.filterMap (growth? measure), n < Quantity.wordRange := by
    intro n member
    obtain ⟨⟨sat, dissat⟩, among, found⟩ := List.mem_filterMap.mp member
    obtain ⟨first, _⟩ := narrow _ among
    cases sat <;> cases dissat <;> cases found
    exact Nat.lt_of_le_of_lt (Nat.sub_le _ _) (first _ rfl)
  rw [thresholdMeasure?_eq, thresholdMeasure?_eq]
  simp only [base, growth, List.length_map, List.any_map, List.countP_map, Function.comp_def,
    Option.isNone_map]
  split
  next => rfl
  next =>
    split
    next =>
      rw [Option.map_some, LawfulQuantity.amount_add, Quantity.amount_total,
        Quantity.amount_totalOfLargest grows]
    next => rfl

variable {execItems : Nat} {dissats : List (Option (Usage Nat))} {usage : Usage Nat} {bound : Nat}

theorem atMost_threshold? {bounds : List Nat} (within : List.Forall₂
      (fun pair bound => (∀ u ∈ pair.1, AtMost u bound) ∧ ∀ u ∈ pair.2, AtMost u bound) items bounds)
    (few : bounds.sum ≤ bound) (low : execItems ≤ bound) :
    ∀ u ∈ threshold? k execItems items, u.AtMost bound := by
  intro u found
  obtain ⟨execs, measured⟩ := threshold?_eq_some.mp found
  have below (m : Tally) : m.of u ≤ bound := by
    refine (thresholdMeasure?_le (within.imp fun pair n within => ?_) _ (measured m)).trans few
    exact ⟨fun u member => (within.1 u member).of_le m, fun u member => (within.2 u member).of_le m⟩
  exact ⟨below .witnessSize, below .witnessItems, below .scriptSigSize, execs ▸ low, below .execOpcodes⟩

theorem toWords_threshold? (within : ∀ pair ∈ items, (∀ u ∈ pair.1, AtMost u bound) ∧
      ∀ u ∈ pair.2, AtMost u bound) (narrow : bound < Quantity.wordRange) :
    (threshold? k execItems items).map toWords =
      threshold? k (amount execItems) (items.map pairToWords) := by
  have measured (measure : Usage Nat → Nat) (measure' : Usage Word → Word)
      (same : ∀ u, (amount (measure u) : Word) = measure' u.toWords)
      (le : ∀ u, AtMost u bound → measure u ≤ bound) :
      thresholdMeasure? measure' k (items.map pairToWords) =
        (thresholdMeasure? measure k items).map amount := by
    refine (toWords_thresholdMeasure? same fun pair member => ?_).symm
    obtain ⟨first, second⟩ := within pair member
    exact ⟨fun u among => Nat.lt_of_le_of_lt (le u (first u among)) narrow,
      fun u among => Nat.lt_of_le_of_lt (le u (second u among)) narrow⟩
  unfold threshold?
  rw [measured witnessSize witnessSize (fun _ => rfl) fun _ within => within.witnessSize,
    measured witnessItems witnessItems (fun _ => rfl) fun _ within => within.witnessItems,
    measured scriptSigSize scriptSigSize (fun _ => rfl) fun _ within => within.scriptSigSize,
    measured execOpcodes execOpcodes (fun _ => rfl) fun _ within => within.execOpcodes]
  cases thresholdMeasure? witnessSize k items <;> cases thresholdMeasure? witnessItems k items <;>
    cases thresholdMeasure? scriptSigSize k items <;> cases thresholdMeasure? execOpcodes k items <;>
      rfl

/-- Dissatisfactions one after the other add up in all but the elements on the stacks. -/
private theorem foldlM_followedBy (usages : List (Usage Nat)) (start : Usage Nat) :
    (usages.map some).foldlM (fun (usage : Usage Nat) dissat => do
      return { usage.followedBy (← dissat) 0 with execItems }) { start with execItems } =
      some ⟨start.witnessSize + (usages.map witnessSize).sum,
        start.witnessItems + (usages.map witnessItems).sum,
        start.scriptSigSize + (usages.map scriptSigSize).sum, execItems,
        start.execOpcodes + (usages.map execOpcodes).sum⟩ := by
  induction usages generalizing start with
  | nil => rfl
  | cons first rest ih =>
    simp only [List.map_cons, List.sum_cons, ← Nat.add_assoc]
    exact ih (start.followedBy first 0)

theorem thresholdNone?_map_some (usages : List (Usage Nat)) :
    thresholdNone? execItems (usages.map some) = some ⟨(usages.map witnessSize).sum,
      (usages.map witnessItems).sum, (usages.map scriptSigSize).sum, execItems,
      (usages.map execOpcodes).sum⟩ := by
  refine (foldlM_followedBy usages (pushes 0 0 0 0)).trans ?_
  simp [pushes, amount]

/-- There is a bound only if every child can be dissatisfied. -/
theorem exists_of_thresholdNone? [Quantity ν] {execItems : ν} {dissats : List (Option (Usage ν))}
    {usage : Usage ν} (found : thresholdNone? execItems dissats = some usage) :
    ∃ usages : List (Usage ν), dissats = usages.map some := by
  unfold thresholdNone? at found
  generalize ({ (pushes 0 0 0 0 : Usage ν) with execItems } : Usage ν) = start at found
  induction dissats generalizing start with
  | nil => exact ⟨[], rfl⟩
  | cons first rest ih =>
    rw [List.foldlM_cons] at found
    cases first with
    | none => cases found
    | some u =>
      obtain ⟨usages, rfl⟩ := ih _ found
      exact ⟨u :: usages, rfl⟩

theorem atMost_thresholdNone? {bounds : List Nat}
    (within : List.Forall₂ (fun dissat bound => ∀ u ∈ dissat, AtMost u bound) dissats bounds)
    (few : bounds.sum ≤ bound) (low : execItems ≤ bound) :
    ∀ u ∈ thresholdNone? execItems dissats, u.AtMost bound := by
  intro u found
  obtain ⟨usages, rfl⟩ := exists_of_thresholdNone? found
  rw [thresholdNone?_map_some] at found
  cases found
  rw [List.forall₂_map_left_iff] at within
  have measured {measure : Usage Nat → Nat} (le : ∀ u n, AtMost u n → measure u ≤ n) :
      (usages.map measure).sum ≤ bound := by
    refine le_trans ?_ few
    clear few
    induction within with
    | nil => exact Nat.le_refl 0
    | cons head _ ih =>
      rw [List.map_cons, List.sum_cons, List.sum_cons]
      exact Nat.add_le_add (le _ _ (head _ rfl)) ih
  exact ⟨measured fun _ _ within => within.witnessSize, measured fun _ _ within => within.witnessItems,
    measured fun _ _ within => within.scriptSigSize, low, measured fun _ _ within => within.execOpcodes⟩

theorem toWords_thresholdNone? :
    (thresholdNone? execItems dissats).map toWords =
      thresholdNone? (amount execItems) (dissats.map (Option.map toWords)) := by
  unfold thresholdNone?
  have start : ({ (pushes 0 0 0 0 : Usage Word) with execItems := amount execItems } : Usage Word) =
      toWords { (pushes 0 0 0 0 : Usage Nat) with execItems } := rfl
  rw [start]
  generalize ({ (pushes 0 0 0 0 : Usage Nat) with execItems } : Usage Nat) = start
  induction dissats generalizing start with
  | nil => rfl
  | cons first rest ih =>
    rw [List.map_cons, List.foldlM_cons, List.foldlM_cons]
    cases first with
    | none => rfl
    | some u =>
      refine (ih _).trans ?_
      have step : ({ (start.followedBy u 0).toWords with execItems := amount execItems } : Usage Word) =
          { start.toWords.followedBy u.toWords 0 with execItems := amount execItems } :=
        Usage.ext (LawfulQuantity.amount_add _ _) (LawfulQuantity.amount_add _ _)
          (LawfulQuantity.amount_add _ _) rfl (LawfulQuantity.amount_add _ _)
      exact congrArg (fun start => List.foldlM _ start (rest.map (Option.map toWords))) step

end Threshold

end Usage

end LockScript
