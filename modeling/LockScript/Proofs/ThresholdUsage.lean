import LockScript.Proofs.ExactBudget

/-! # The usage of a threshold

A threshold bounds each measure on its own: what all children need if they are dissatisfied, and on top as
much as the `k` children grow that grow the most. Whatever the usages of the children are, no choice of
`k` children needs more than that. If no child needs less when it is satisfied then some choice needs as
much. Only the sums have to fit into a word.
-/

namespace LockScript

namespace Usage

variable {ν μ : Type} {k : Nat}

/-- A choice of `k` children to satisfy, told by the mark of each child and its usage for that answer. -/
structure Selection (k : Nat) (items : List (Option (Usage ν) × Option (Usage ν)))
    (parts : List (Bool × Usage ν)) : Prop where
  found : List.Forall₂ (fun pair part => forAnswer part.1 pair = some part.2) items parts
  count : parts.countP Prod.fst = k

/-- The usages of a child in other quantities. -/
abbrev pairMap (f : ν → μ) (pair : Option (Usage ν) × Option (Usage ν)) :
    Option (Usage μ) × Option (Usage μ) :=
  (pair.1.map (Usage.map f), pair.2.map (Usage.map f))

theorem Selection.map {items : List (Option (Usage ν) × Option (Usage ν))} {parts : List (Bool × Usage ν)}
    (f : ν → μ) (selected : Selection k items parts) :
    Selection k (items.map (pairMap f)) (parts.map fun part => (part.1, part.2.map f)) where
  found := by
    rw [List.forall₂_map_left_iff, List.forall₂_map_right_iff]
    refine selected.found.imp fun (sat, dissat) (mark, u) found => ?_
    cases mark with
    | true => exact congrArg (Option.map (Usage.map f)) found
    | false => exact congrArg (Option.map (Usage.map f)) found
  count := by
    rw [List.countP_map]
    exact selected.count

theorem Selection.cons {pair : Option (Usage ν) × Option (Usage ν)}
    {items : List (Option (Usage ν) × Option (Usage ν))} {parts : List (Bool × Usage ν)} {mark : Bool}
    {u : Usage ν} (found : forAnswer mark pair = some u) (selected : Selection k items parts) :
    Selection (k + mark.toNat) (pair :: items) ((mark, u) :: parts) where
  found := .cons found selected.found
  count := by
    rw [List.countP_cons, selected.count]
    cases mark <;> rfl

/-- No child that can be satisfied and dissatisfied needs less if it is satisfied. -/
def Grows (measure : Usage ν → Nat) (items : List (Option (Usage ν) × Option (Usage ν))) : Prop :=
  ∀ pair ∈ items, ∀ s ∈ pair.1, ∀ d ∈ pair.2, measure d ≤ measure s

section Exact

variable {measure : Usage Nat → Nat} {items : List (Option (Usage Nat) × Option (Usage Nat))}
  {parts : List (Bool × Usage Nat)} {total : Nat}

/-- There is a bound wherever there is a choice, which needs no more. -/
theorem Selection.exists_thresholdMeasure? (measure : Usage Nat → Nat) (selected : Selection k items parts) :
    ∃ total, thresholdMeasure? measure k items = some total ∧
      (parts.map fun part => measure part.2).sum ≤ total := by
  obtain ⟨total, found, le⟩ := Usage.exists_thresholdMeasure? (k := k)
    (List.forall₂_map_right_iff (f := fun part : Bool × Usage Nat => (part.1, measure part.2)).mpr
      (selected.found.imp fun _ part found => ⟨part.2, found, le_rfl⟩))
    ((List.countP_map ..).trans selected.count)
  exact ⟨total, found, by rwa [List.map_map] at le⟩

/-- Besides the children that have to be satisfied any others may be. -/
theorem exists_selection_of_sublist {chosen : List Nat}
    (possible : ∀ pair ∈ items, (pair.1.isNone && pair.2.isNone) = false)
    (among : chosen.Sublist (items.filterMap (growth? measure))) :
    ∃ parts, Selection ((items.countP fun pair => pair.2.isNone) + chosen.length) items parts ∧
      (Grows measure items →
        (parts.map fun part => measure part.2).sum = (items.map (baseline measure)).sum + chosen.sum) := by
  induction items generalizing chosen with
  | nil =>
    obtain rfl := List.sublist_nil.mp among
    exact ⟨[], ⟨.nil, rfl⟩, fun _ => rfl⟩
  | cons pair items ih =>
    obtain ⟨head, below⟩ := List.forall_mem_cons.mp possible
    -- A child that stays as it is in the baseline adds nothing to what is chosen.
    have keep (mark : Bool) (u : Usage Nat) (found : forAnswer mark pair = some u)
        (same : baseline measure pair = measure u) (forced : mark = pair.2.isNone)
        (rest : chosen.Sublist (items.filterMap (growth? measure))) :
        ∃ parts, Selection (((pair :: items).countP fun pair => pair.2.isNone) + chosen.length)
          (pair :: items) parts ∧ (Grows measure (pair :: items) →
            (parts.map fun part => measure part.2).sum =
              ((pair :: items).map (baseline measure)).sum + chosen.sum) := by
      obtain ⟨parts, selected, exact⟩ := ih below rest
      refine ⟨(mark, u) :: parts, ?_, fun grows => ?_⟩
      · have whole := selected.cons found
        rw [Nat.add_right_comm] at whole
        convert whole using 2
        rw [List.countP_cons, forced]
        cases pair.2.isNone <;> rfl
      · rw [List.map_cons, List.map_cons, List.sum_cons, List.sum_cons, same,
          exact (List.forall_mem_cons.mp grows).2, Nat.add_assoc]
    obtain ⟨_ | s, _ | d⟩ := pair
    · cases head
    · exact keep false d rfl rfl rfl among
    · exact keep true s rfl rfl rfl among
    · rw [List.filterMap_cons_some (show growth? measure (some s, some d) = some _ from rfl)] at among
      cases among with
      | cons _ rest => exact keep false d rfl rfl rfl rest
      | @cons_cons chosen _ _ rest =>
        obtain ⟨parts, selected, exact⟩ := ih below rest
        have whole : Selection _ ((some s, some d) :: items) ((true, s) :: parts) := selected.cons rfl
        refine ⟨(true, s) :: parts, whole, fun grows => ?_⟩
        obtain ⟨grows, growsBelow⟩ := List.forall_mem_cons.mp grows
        have le : measure d ≤ measure s := grows s rfl d rfl
        rw [List.map_cons, List.map_cons, List.sum_cons, List.sum_cons, List.sum_cons, exact growsBelow]
        change measure s + _ = measure d + _ + (measure s - measure d + _)
        omega

/-- Where there is a bound there is a choice, and one that needs all of it if all children grow. -/
theorem exists_selection_of_thresholdMeasure? (bounded : thresholdMeasure? measure k items = some total) :
    ∃ parts, Selection k items parts ∧
      (Grows measure items → (parts.map fun part => measure part.2).sum = total) := by
  rw [thresholdMeasure?_eq] at bounded
  split at bounded
  next => cases bounded
  next possible =>
  simp only at bounded
  split at bounded
  next enough =>
    obtain ⟨chosen, among, length, largest⟩ := Quantity.exists_sublist_totalOfLargest enough.2
    obtain ⟨parts, selected, exact⟩ := exists_selection_of_sublist
      (fun pair member => Bool.eq_false_iff.mpr fun none => possible (List.any_eq_true.mpr ⟨pair, member, none⟩))
      among
    rw [length, Nat.add_sub_cancel' enough.1] at selected
    refine ⟨parts, selected, fun grows => ?_⟩
    rw [exact grows, largest]
    exact Option.some.inj bounded
  next => cases bounded

end Exact

section Words

open Quantity (amount)

variable {items : List (Option (Usage Word) × Option (Usage Word))}

/-- The usages of children as natural numbers. -/
abbrev exactItems (items : List (Option (Usage Word) × Option (Usage Word))) :
    List (Option (Usage Nat) × Option (Usage Nat)) :=
  items.map (pairMap UInt64.toNat)

/-- What a choice needs of a measure, counted without wrap-around. -/
def needs (m : Tally) (parts : List (Bool × Usage Word)) : Nat :=
  (parts.map fun part => (m.of part.2).toNat).sum

/-- A choice in other quantities comes from one in these. -/
theorem Selection.exists_of_map {f : ν → μ} {items : List (Option (Usage ν) × Option (Usage ν))}
    {parts : List (Bool × Usage μ)} (selected : Selection k (items.map (pairMap f)) parts) :
    ∃ own, Selection k items own ∧ parts = own.map fun part => (part.1, part.2.map f) := by
  obtain ⟨found, count⟩ := selected
  rw [List.forall₂_map_left_iff] at found
  induction found generalizing k with
  | nil => exact ⟨[], ⟨.nil, count⟩, rfl⟩
  | @cons pair part items parts head _ ih =>
    obtain ⟨mark, u⟩ := part
    obtain ⟨own, selected, rfl⟩ := ih rfl
    have known : ∃ v, forAnswer mark pair = some v ∧ v.map f = u := by
      cases mark with
      | true => exact Option.map_eq_some_iff.mp head
      | false => exact Option.map_eq_some_iff.mp head
    obtain ⟨v, known, rfl⟩ := known
    refine ⟨(mark, v) :: own, ⟨.cons known selected.found, ?_⟩, rfl⟩
    rw [← count, List.countP_cons, List.countP_cons, List.countP_map]
    rfl

theorem needs_map (m : Tally) (own : List (Bool × Usage Word)) :
    ((own.map fun part => (part.1, part.2.map UInt64.toNat)).map fun part => m.of part.2).sum =
      needs m own := by
  rw [List.map_map]
  exact congrArg List.sum (List.map_congr_left fun part _ => m.of_map UInt64.toNat part.2)

theorem map_pairToWords_exactItems : (exactItems items).map pairToWords = items := by
  have back (usage : Option (Usage Word)) : (usage.map (Usage.map UInt64.toNat)).map toWords = usage := by
    cases usage with
    | none => rfl
    | some u =>
      exact congrArg some (Usage.ext (UInt64.ofNat_toNat ..) (UInt64.ofNat_toNat ..) (UInt64.ofNat_toNat ..)
        (UInt64.ofNat_toNat ..) (UInt64.ofNat_toNat ..))
  rw [List.map_map]
  exact (List.map_congr_left fun pair _ => Prod.ext (back pair.1) (back pair.2)).trans (List.map_id items)

/-- In words a measure is the exact one, up to wrap-around. -/
theorem thresholdMeasure?_exactItems (m : Tally) : thresholdMeasure? m.of k items =
    (thresholdMeasure? m.of k (exactItems items)).map amount := by
  have below (usage : Option (Usage Word)) : ∀ u ∈ usage.map (Usage.map UInt64.toNat),
      m.of u < Quantity.wordRange := by
    intro u found
    obtain ⟨v, _, rfl⟩ := Option.map_eq_some_iff.mp found
    rw [m.of_map]
    exact UInt64.toNat_lt (m.of v)
  rw [toWords_thresholdMeasure? (fun u => (m.of_map amount u).symm), map_pairToWords_exactItems]
  intro pair member
  obtain ⟨pair, _, rfl⟩ := List.mem_map.mp member
  exact ⟨below pair.1, below pair.2⟩

/-- The exact bound, which that in words is up to wrap-around. -/
theorem exists_exact_of_threshold? {execItems : Word} {usage : Usage Word}
    (bounded : threshold? k execItems items = some usage) (exec : Nat) :
    ∃ exact, threshold? k exec (exactItems items) = some exact ∧
      ∀ m : Tally, amount (m.of exact) = m.of usage := by
  have total (m : Tally) : ∃ total, thresholdMeasure? m.of k (exactItems items) = some total ∧
      amount total = m.of usage := by
    have measured := (threshold?_eq_some.mp bounded).2 m
    rw [thresholdMeasure?_exactItems] at measured
    exact Option.map_eq_some_iff.mp measured
  choose total measured same using total
  refine ⟨_, threshold?_ofTallies measured exec, fun m => ?_⟩
  rw [m.of_ofTallies, same m]

section Measured

variable {m : Tally} {total : Nat} (measured : thresholdMeasure? m.of k (exactItems items) = some total)

include measured

/-- No choice needs more than the exact bound. -/
theorem Selection.needs_le {parts : List (Bool × Usage Word)} (selected : Selection k items parts) :
    needs m parts ≤ total := by
  obtain ⟨most, measured', le⟩ := (selected.map UInt64.toNat).exists_thresholdMeasure? m.of
  rw [needs_map] at le
  rwa [Option.some.inj (measured.symm.trans measured')]

/-- If all children grow then some choice needs as much as the exact bound. -/
theorem exists_needs_eq (grows : Grows (fun u => (m.of u).toNat) items) :
    ∃ parts, Selection k items parts ∧ needs m parts = total := by
  obtain ⟨parts, selected, whole⟩ := exists_selection_of_thresholdMeasure? measured
  obtain ⟨own, choice, rfl⟩ := selected.exists_of_map
  rw [needs_map] at whole
  refine ⟨own, choice, whole fun pair member s satisfied d dissatisfied => ?_⟩
  obtain ⟨pair, among, rfl⟩ := List.mem_map.mp member
  obtain ⟨s, sat, rfl⟩ := Option.map_eq_some_iff.mp satisfied
  obtain ⟨d, dissat, rfl⟩ := Option.map_eq_some_iff.mp dissatisfied
  rw [m.of_map, m.of_map]
  exact grows pair among s sat d dissat

end Measured

/-- There is a bound exactly if there is a choice. -/
theorem exists_threshold?_iff {execItems : Word} :
    (∃ usage, threshold? k execItems items = some usage) ↔ ∃ parts, Selection k items parts := by
  constructor
  · rintro ⟨usage, bounded⟩
    obtain ⟨exact, known, _⟩ := exists_exact_of_threshold? bounded 0
    have measured := (threshold?_eq_some.mp known).2 .witnessSize
    obtain ⟨parts, selected, _⟩ := exists_selection_of_thresholdMeasure? measured
    obtain ⟨own, selected, _⟩ := selected.exists_of_map
    exact ⟨own, selected⟩
  · rintro ⟨parts, selected⟩
    have measured (m : Tally) : ∃ total : Word, thresholdMeasure? m.of k items = some total := by
      obtain ⟨total, known, _⟩ := (selected.map UInt64.toNat).exists_thresholdMeasure? m.of
      exact ⟨amount total, by rw [thresholdMeasure?_exactItems, known, Option.map_some]⟩
    choose total measured using measured
    exact ⟨_, threshold?_ofTallies measured execItems⟩

end Words

end Usage

namespace Budget

/-- A threshold has a bound exactly if some choice of `k` children can be satisfied and all others be
dissatisfied. Where the sums for a measure fit into a word, which is where the bound that is counted in
natural numbers does, no choice needs more than the bound. Some choice needs as much, unless a child needs
less if it is satisfied. -/
theorem threshold_sat_exact (k : Nat) (subs : List (Budget Word)) :
    let items := subs.map fun x => (x.sat, x.dissat)
    ((∃ usage, (threshold k subs).sat = some usage) ↔ ∃ parts, Usage.Selection k items parts) ∧
      ∀ usage, (threshold k subs).sat = some usage → ∀ m : Usage.Tally,
        (∀ exact, (threshold k (subs.map (Budget.map UInt64.toNat))).sat = some exact → m.of exact < 2 ^ 64) →
          (∀ parts, Usage.Selection k items parts → Usage.needs m parts ≤ (m.of usage).toNat) ∧
            (Usage.Grows (fun u => (m.of u).toNat) items →
              ∃ parts, Usage.Selection k items parts ∧ Usage.needs m parts = (m.of usage).toNat) := by
  intro items
  refine ⟨Usage.exists_threshold?_iff, fun usage bounded m narrow => ?_⟩
  have exactPairs : (subs.map (Budget.map UInt64.toNat)).map (fun x => (x.sat, x.dissat)) = Usage.exactItems items := by
    rw [List.map_map, Usage.exactItems, List.map_map]
    rfl
  obtain ⟨exact, known, same⟩ := Usage.exists_exact_of_threshold? bounded
    (Quantity.largest (execs (subs.map (Budget.map UInt64.toNat))) + 1)
  have fits : m.of exact < 2 ^ 64 := by
    refine narrow exact ?_
    rw [threshold_eq]
    simp only [exactPairs]
    exact known
  have measured := (Usage.threshold?_eq_some.mp known).2 m
  have value : (m.of usage).toNat = m.of exact := by
    rw [← same m]
    exact Quantity.toNat_amount fits
  rw [value]
  exact ⟨fun parts => Usage.Selection.needs_le measured, Usage.exists_needs_eq measured⟩

/-- Of four children the first has to be satisfied and the second cannot be. Of the other two, the key
needs more when it is satisfied and the hashlock does not. -/
theorem threshold_sat_exact_forced :
    let subs : List (Budget Word) := [.one, .zero, .digest 20, .leaf 35 1 (.pushes 73 1 73 1) (some .emptyElement)]
    let items := subs.map fun x => (x.sat, x.dissat)
    let usage : Usage Word := .pushes 106 2 106 3
    (threshold 2 subs).sat = some usage ∧
      (∀ exact, (threshold 2 (subs.map (Budget.map UInt64.toNat))).sat = some exact → exact.witnessSize < 2 ^ 64) ∧
      (∀ parts, Usage.Selection 2 items parts → Usage.needs .witnessSize parts ≤ 106) ∧
      Usage.Grows (fun u => u.witnessSize.toNat) items ∧
      ∃ parts, Usage.Selection 2 items parts ∧ Usage.needs .witnessSize parts = 106 := by
  intro subs items usage
  have bounded : (threshold 2 subs).sat = some usage := by
    simp only [threshold_eq, joined, Usage.threshold?, Usage.thresholdMeasure?, Quantity.totalOfLargest_eq]
    decide +kernel
  have exactBound : (threshold 2 (subs.map (Budget.map UInt64.toNat))).sat =
      some (.pushes 106 2 106 3) := by
    simp only [threshold_eq, joined, Usage.threshold?, Usage.thresholdMeasure?, Quantity.totalOfLargest_eq]
    decide +kernel
  have narrow : ∀ exact, (threshold 2 (subs.map (Budget.map UInt64.toNat))).sat = some exact →
      exact.witnessSize < 2 ^ 64 := by
    intro exact found
    obtain rfl := Option.some.inj (exactBound.symm.trans found)
    decide
  have grows : Usage.Grows (fun u => u.witnessSize.toNat) items := by
    unfold Usage.Grows
    decide
  obtain ⟨most, attained⟩ := (threshold_sat_exact 2 subs).2 usage bounded .witnessSize narrow
  exact ⟨bounded, narrow, most, grows, attained grows⟩

end Budget

end LockScript
