import LockScript.Proofs.WrapAround

/-! # Measures that a word can count

The measures of a witness only add up and are compared, so no part of a sum is above the whole. A bound in
words is therefore the exact one wherever a word can count that, however long the script is, and whether or
not other numbers of the same budget have wrapped around.
-/

namespace LockScript

open Quantity (amount)

namespace Usage

/-! ## Usages -/

/-- A usage in words tells a measure of the exact one, if a word can count it. -/
def Counts (m : Tally) (usage : Usage Word) (exact : Usage Nat) : Prop :=
  m.of exact < Quantity.wordRange → (m.of usage).toNat = m.of exact

theorem Tally.of_followedBy {ν : Type} [Quantity ν] (m : Tally) (a b : Usage ν) (shift : Nat) :
    m.of (a.followedBy b shift) = m.of a + m.of b := by
  cases m <;> rfl

theorem Tally.of_worst {ν : Type} [Quantity ν] (m : Tally) (a b : Usage ν) :
    m.of (a.worst b) = max (m.of a) (m.of b) := by
  cases m <;> rfl

variable {m : Tally} {a b : Usage Word} {a' b' : Usage Nat} {first second : Option (Usage Word)}
  {first' second' : Option (Usage Nat)}

theorem counts_toWords (exact : Option (Usage Nat)) : Option.Rel (Counts m) (exact.map toWords) exact := by
  cases exact with
  | none => exact .none
  | some exact => exact .some fun narrow => by rw [m.of_map, Quantity.toNat_amount narrow]

theorem Counts.eq_amount (counts : a.Counts m a') (narrow : m.of a' < Quantity.wordRange) :
    m.of a = amount (m.of a') := by
  rw [← counts narrow]
  exact UInt64.ofNat_toNat.symm

/-- If a word can count a sum, it can count both parts. -/
private theorem toNat_add_eq {x y : Word} {n n' : Nat} (left : n < Quantity.wordRange → x.toNat = n)
    (right : n' < Quantity.wordRange → y.toNat = n') (narrow : n + n' < Quantity.wordRange) :
    (x + y).toNat = n + n' := by
  rw [UInt64.toNat_add, left (Nat.lt_of_le_of_lt (Nat.le_add_right n n') narrow),
    right (Nat.lt_of_le_of_lt (Nat.le_add_left n' n) narrow), Nat.mod_eq_of_lt narrow]

theorem Counts.followedBy (left : a.Counts m a') (right : b.Counts m b') (shift : Nat) :
    (a.followedBy b shift).Counts m (a'.followedBy b' shift) := by
  rw [Counts, m.of_followedBy, m.of_followedBy]
  exact toNat_add_eq left right

theorem Counts.withSelector (counts : a.Counts m a') (size : Nat) :
    (a.withSelector size).Counts m (a'.withSelector size) := by
  cases m with
  | witnessSize | witnessItems | scriptSigSize => exact toNat_add_eq counts Quantity.toNat_amount
  | execOpcodes => exact counts

theorem Counts.worst (left : a.Counts m a') (right : b.Counts m b') :
    (a.worst b).Counts m (a'.worst b') := by
  rw [Counts, m.of_worst, m.of_worst]
  intro narrow
  obtain ⟨narrowA, narrowB⟩ := Nat.max_lt.mp narrow
  rw [left.eq_amount narrowA, right.eq_amount narrowB, ← Quantity.amount_max narrowA narrowB,
    Quantity.toNat_amount narrow]

theorem counts_followedBy? (left : Option.Rel (Counts m) first first')
    (right : Option.Rel (Counts m) second second') (shift : Nat) :
    Option.Rel (Counts m) (followedBy? first second shift) (followedBy? first' second' shift) := by
  cases left with
  | none => exact .none
  | some left =>
    cases right with
    | none => exact .none
    | some right => exact .some (left.followedBy right shift)

theorem counts_withSelector (counts : Option.Rel (Counts m) first first') (size : Nat) :
    Option.Rel (Counts m) (first.map (·.withSelector size)) (first'.map (·.withSelector size)) := by
  cases counts with
  | none => exact .none
  | some counts => exact .some (counts.withSelector size)

theorem counts_worst? (left : Option.Rel (Counts m) first first')
    (right : Option.Rel (Counts m) second second') :
    Option.Rel (Counts m) (worst? first second) (worst? first' second') := by
  cases left with
  | none =>
    cases right with
    | none => exact .none
    | some right => exact .some right
  | some left =>
    cases right with
    | none => exact .some left
    | some right => exact .some (left.worst right)

/-! ## Thresholds -/

section Threshold

theorem counts_thresholdNone? {dissats : List (Option (Usage Word))} {dissats' : List (Option (Usage Nat))}
    (each : List.Forall₂ (Option.Rel (Counts m)) dissats dissats') (execItems : Word) (execItems' : Nat) :
    Option.Rel (Counts m) (thresholdNone? execItems dissats) (thresholdNone? execItems' dissats') := by
  have exec (u : Usage Word) (u' : Usage Nat) (counts : u.Counts m u') :
      ({ u with execItems } : Usage Word).Counts m { u' with execItems := execItems' } := by
    cases m <;> exact counts
  have fold (start : Usage Word) (start' : Usage Nat) (counts : start.Counts m start') :
      Option.Rel (Counts m)
        (dissats.foldlM (fun usage dissat => do
          return { usage.followedBy (← dissat) 0 with execItems }) start)
        (dissats'.foldlM (fun usage dissat => do
          return { usage.followedBy (← dissat) 0 with execItems := execItems' }) start') := by
    induction each generalizing start start' with
    | nil => exact .some counts
    | cons head _ ih =>
      rw [List.foldlM_cons, List.foldlM_cons]
      cases head with
      | none => exact .none
      | some head => exact ih _ _ (exec _ _ (counts.followedBy head 0))
  exact fold _ _ (exec (pushes 0 0 0 0) (pushes 0 0 0 0) fun _ => by cases m <;> rfl)

variable {k : Nat} {items : List (Option (Usage Word) × Option (Usage Word))}
  {exact : List (Option (Usage Nat) × Option (Usage Nat))}

/-- Both usages of a child tell a measure of the exact ones, and there is one in words where there is an
exact one. -/
def CountsBoth (m : Tally) (pair : Option (Usage Word) × Option (Usage Word))
    (exact : Option (Usage Nat) × Option (Usage Nat)) : Prop :=
  Option.Rel (Counts m) pair.1 exact.1 ∧ Option.Rel (Counts m) pair.2 exact.2

private theorem map_lacks_eq (each : List.Forall₂ (CountsBoth m) items exact) :
    items.map lacks = exact.map lacks := by
  induction each with
  | nil => rfl
  | @cons pair pair' _ _ head _ ih =>
    obtain ⟨sat, dissat⟩ := pair
    obtain ⟨sat', dissat'⟩ := pair'
    obtain ⟨left, right⟩ := head
    rw [List.map_cons, List.map_cons, ih]
    cases left <;> cases right <;> rfl

/-- If a word can count what each child adds in any case, the sum in words is the exact one. -/
private theorem map_baseline_eq (each : List.Forall₂ (CountsBoth m) items exact)
    (narrow : ∀ pair ∈ exact, baseline m.of pair < Quantity.wordRange) :
    items.map (baseline m.of) = (exact.map (baseline m.of)).map amount := by
  induction each with
  | nil => rfl
  | @cons pair pair' _ _ head _ ih =>
    obtain ⟨own, below⟩ := List.forall_mem_cons.mp narrow
    obtain ⟨sat, dissat⟩ := pair
    obtain ⟨sat', dissat'⟩ := pair'
    obtain ⟨left, right⟩ := head
    rw [List.map_cons, List.map_cons, List.map_cons, ih below]
    refine congrArg (· :: _) ?_
    cases right with
    | some counts => exact counts.eq_amount own
    | none =>
      cases left with
      | some counts => exact counts.eq_amount own
      | none => rfl

/-- The same for what children add on top if they are satisfied. -/
private theorem filterMap_growth_eq (each : List.Forall₂ (CountsBoth m) items exact)
    (narrow : ∀ pair ∈ exact, (∀ u ∈ pair.1, m.of u < Quantity.wordRange) ∧
      ∀ u ∈ pair.2, m.of u < Quantity.wordRange) :
    items.filterMap (growth? m.of) = (exact.filterMap (growth? m.of)).map amount := by
  induction each with
  | nil => rfl
  | @cons pair pair' _ _ head _ ih =>
    obtain ⟨own, below⟩ := List.forall_mem_cons.mp narrow
    obtain ⟨sat, dissat⟩ := pair
    obtain ⟨sat', dissat'⟩ := pair'
    obtain ⟨left, right⟩ := head
    rw [List.filterMap_cons, List.filterMap_cons, ih below]
    cases left with
    | none => rfl
    | some countsSat =>
      cases right with
      | none => rfl
      | some countsDissat =>
        have narrowSat := own.1 _ rfl
        have narrowDissat := own.2 _ rfl
        simp only [growth?, countsSat.eq_amount narrowSat, countsDissat.eq_amount narrowDissat,
          ← Quantity.amount_excess narrowSat narrowDissat, List.map_cons]

/-- If some child is chosen, the bound is above both usages of every child. -/
private theorem le_of_chosen {measure : Usage Nat → Nat} {count : Nat} (chosen : 0 < count)
    {pair : Option (Usage Nat) × Option (Usage Nat)} (member : pair ∈ exact) :
    let bound := (exact.map (baseline measure)).sum +
      Quantity.totalOfLargest count (exact.filterMap (growth? measure))
    (∀ u ∈ pair.1, measure u ≤ bound) ∧ ∀ u ∈ pair.2, measure u ≤ bound := by
  intro bound
  have least : baseline measure pair ≤ (exact.map (baseline measure)).sum :=
    List.single_le_sum (fun _ _ => Nat.zero_le _) _ (List.mem_map_of_mem member)
  obtain ⟨sat, dissat⟩ := pair
  refine ⟨fun s isSat => ?_, fun d isDissat => ?_⟩
  · obtain rfl := Option.mem_def.mp isSat
    cases dissat with
    | none => exact least.trans (Nat.le_add_right ..)
    | some d =>
      have grows : measure s - measure d ∈ exact.filterMap (growth? measure) :=
        List.mem_filterMap.mpr ⟨_, member, rfl⟩
      have most := Quantity.sum_le_totalOfLargest (List.singleton_sublist.mpr grows)
        (show [measure s - measure d].length ≤ count from chosen)
      rw [List.sum_singleton] at most
      have least : measure d ≤ (exact.map (baseline measure)).sum := least
      omega
  · obtain rfl := Option.mem_def.mp isDissat
    exact least.trans (Nat.le_add_right ..)

/-- If a word can count what is needed in all, the sum in words is the exact one. Where no child is chosen, it
does not matter what the children would add. -/
private theorem toNat_total_eq (each : List.Forall₂ (CountsBoth m) items exact) {count : Nat}
    (narrow : Quantity.total (exact.map (baseline m.of)) +
      Quantity.totalOfLargest count (exact.filterMap (growth? m.of)) < Quantity.wordRange) :
    (Quantity.total (items.map (baseline m.of)) +
        Quantity.totalOfLargest count (items.filterMap (growth? m.of))).toNat =
      Quantity.total (exact.map (baseline m.of)) +
        Quantity.totalOfLargest count (exact.filterMap (growth? m.of)) := by
  have base : items.map (baseline m.of) = (exact.map (baseline m.of)).map amount := by
    refine map_baseline_eq each fun pair member => lt_of_le_of_lt ?_ narrow
    exact (List.single_le_sum (fun _ _ => Nat.zero_le _) _ (List.mem_map_of_mem member)).trans
      (Nat.le_add_right ..)
  have top : Quantity.totalOfLargest count (items.filterMap (growth? m.of)) =
      amount (Quantity.totalOfLargest count (exact.filterMap (growth? m.of))) := by
    rcases Nat.eq_zero_or_pos count with rfl | chosen
    · rfl
    · have within : ∀ pair ∈ exact, (∀ u ∈ pair.1, m.of u < Quantity.wordRange) ∧
          ∀ u ∈ pair.2, m.of u < Quantity.wordRange := fun pair member =>
        (le_of_chosen chosen member).imp (fun le u found => (le u found).trans_lt narrow)
          fun le u found => (le u found).trans_lt narrow
      have grows : ∀ n ∈ exact.filterMap (growth? m.of), n < Quantity.wordRange := by
        intro n member
        obtain ⟨⟨_ | s, _ | d⟩, among, found⟩ := List.mem_filterMap.mp member <;> cases found
        exact Nat.lt_of_le_of_lt (Nat.sub_le ..) ((within _ among).1 s rfl)
      rw [filterMap_growth_eq each within, Quantity.amount_totalOfLargest grows]
  rw [base, top, ← Quantity.amount_total, ← LawfulQuantity.amount_add, Quantity.toNat_amount narrow]

/-- Related options are both there or both not. -/
private theorem isSome_eq_of_rel {α β : Type} {R : α → β → Prop} {first : Option α} {second : Option β}
    (related : Option.Rel R first second) : first.isSome = second.isSome := by
  cases related <;> rfl

theorem counts_thresholdMeasure? (each : List.Forall₂ (CountsBoth m) items exact) :
    Option.Rel (fun (total : Word) total' => total' < Quantity.wordRange → total.toNat = total')
      (thresholdMeasure? m.of k items) (thresholdMeasure? m.of k exact) := by
  have same := map_lacks_eq each
  have stuck : items.any (fun pair => pair.1.isNone && pair.2.isNone) =
      exact.any fun pair => pair.1.isNone && pair.2.isNone := by
    have mapped := congrArg (List.any · fun lacking => lacking.1 && lacking.2) same
    rwa [List.any_map, List.any_map] at mapped
  have forced : items.countP (fun pair => pair.2.isNone) = exact.countP fun pair => pair.2.isNone := by
    have mapped := congrArg (List.countP Prod.snd) same
    rwa [List.countP_map, List.countP_map] at mapped
  have growing : (items.filterMap (growth? m.of)).length = (exact.filterMap (growth? m.of)).length := by
    rw [length_growth, length_growth, same]
  rw [thresholdMeasure?_eq, thresholdMeasure?_eq]
  simp only [stuck, forced, growing]
  split
  next => exact .none
  next =>
    split
    next => exact .some fun narrow => toNat_total_eq each narrow
    next => exact .none

theorem counts_threshold? (each : List.Forall₂ (CountsBoth m) items exact) (execItems : Word)
    (execItems' : Nat) :
    Option.Rel (Counts m) (threshold? k execItems items) (threshold? k execItems' exact) := by
  have measured := counts_thresholdMeasure? (k := k) each
  have bounded : (threshold? k execItems items).isSome = (threshold? k execItems' exact).isSome := by
    rw [isSome_threshold?_eq m, isSome_threshold?_eq m]
    exact isSome_eq_of_rel measured
  cases found : threshold? k execItems items with
  | none =>
    rw [found] at bounded
    rw [Option.isNone_iff_eq_none.mp (Option.isSome_eq_false_iff.mp bounded.symm)]
    exact .none
  | some u =>
    rw [found] at bounded
    obtain ⟨u', found'⟩ := Option.isSome_iff_exists.mp bounded.symm
    rw [(threshold?_eq_some.mp found).2 m, (threshold?_eq_some.mp found').2 m] at measured
    rw [found']
    cases measured with
    | some counts => exact .some counts

end Threshold

end Usage

namespace Budget

/-! ## Budgets -/

/-- The bounds of a budget in words tell a measure of the exact ones, if a word can count it. -/
structure Counts (m : Usage.Tally) (budget : Budget Word) (exact : Budget Nat) : Prop where
  sat : Option.Rel (Usage.Counts m) budget.sat exact.sat
  dissat : Option.Rel (Usage.Counts m) budget.dissat exact.dissat

variable {m : Usage.Tally} {x y z : Budget Word} {x' y' z' : Budget Nat}

theorem counts_ofLeaf {κ δ : Type} [KeyLike κ] [DigestLike δ] (context : Context) (l : Leaf κ δ) :
    (ofLeaf context l : Budget Word).Counts m (ofLeaf context l) := by
  rw [← toWords_ofLeaf]
  exact ⟨Usage.counts_toWords _, Usage.counts_toWords _⟩

/-- A bound is only dropped along with the exact one. -/
theorem Counts.withoutMixedPaths (counts : x.Counts m x') (paths : x.lockPaths = x'.lockPaths) :
    x.withoutMixedPaths.Counts m x'.withoutMixedPaths := by
  have keeps (kept : Bool) {usage : Option (Usage Word)} {usage' : Option (Usage Nat)}
      (related : Option.Rel (Usage.Counts m) usage usage') :
      Option.Rel (Usage.Counts m) (if kept then usage else none) (if kept then usage' else none) := by
    cases kept with
    | true => exact related
    | false => exact .none
  constructor
  · change Option.Rel _ (if x.lockPaths.sat.isInhabited then x.sat else none) _
    rw [paths]
    exact keeps _ counts.sat
  · change Option.Rel _ (if x.lockPaths.dissat.isInhabited then x.dissat else none) _
    rw [paths]
    exact keeps _ counts.dissat

theorem Counts.wrap (counts : x.Counts m x') (w : Wrapper) : (Budget.wrap w x).Counts m (Budget.wrap w x') := by
  have empty : Option.Rel (Usage.Counts m) (some .emptyElement) (some .emptyElement) :=
    Usage.counts_toWords (some .emptyElement)
  cases w with
  | alt | swap | check | zeroNotEqual => exact ⟨counts.sat, counts.dissat⟩
  | dupIf => exact ⟨Usage.counts_withSelector counts.sat 2, empty⟩
  | verify => exact ⟨counts.sat, .none⟩
  | nonzero => exact ⟨counts.sat, empty⟩

theorem Counts.pair (countsX : x.Counts m x') (countsY : y.Counts m y') (op : Connective) :
    (Budget.pair op x y).Counts m (Budget.pair op x' y') := by
  have none (shift : Nat) := Usage.counts_followedBy? countsX.dissat countsY.dissat shift
  have second (shift : Nat) := Usage.counts_followedBy? countsX.dissat countsY.sat shift
  have both (shift : Nat) := Usage.counts_followedBy? countsX.sat countsY.sat shift
  cases op with
  | andV => exact ⟨both 0, .none⟩
  | andB => exact ⟨both 1, none 1⟩
  | orB =>
    have first := Usage.counts_followedBy? countsX.sat countsY.dissat 1
    exact ⟨Usage.counts_worst? first (second 1), none 1⟩
  | orD => exact ⟨Usage.counts_worst? countsX.sat (second 0), none 1⟩
  | orC => exact ⟨Usage.counts_worst? countsX.sat (second 0), .none⟩
  | orI =>
    exact ⟨Usage.counts_worst? (Usage.counts_withSelector countsX.sat 2)
        (Usage.counts_withSelector countsY.sat 1),
      Usage.counts_worst? (Usage.counts_withSelector countsX.dissat 2)
        (Usage.counts_withSelector countsY.dissat 1)⟩

theorem Counts.andOr (countsX : x.Counts m x') (countsY : y.Counts m y') (countsZ : z.Counts m z') :
    (Budget.andOr x y z).Counts m (Budget.andOr x' y' z') where
  sat := Usage.counts_worst? (Usage.counts_followedBy? countsX.sat countsY.sat 0)
    (Usage.counts_followedBy? countsX.dissat countsZ.sat 0)
  dissat := Usage.counts_followedBy? countsX.dissat countsZ.dissat 0

theorem counts_threshold {items : List (Budget Word)} {exact : List (Budget Nat)}
    (each : List.Forall₂ (Counts m) items exact) (k : Nat) :
    (Budget.threshold k items).Counts m (Budget.threshold k exact) := by
  constructor
  · refine Usage.counts_threshold? ?_ _ _
    rw [List.forall₂_map_left_iff, List.forall₂_map_right_iff]
    exact each.imp fun _ _ counts => ⟨counts.sat, counts.dissat⟩
  · refine Usage.counts_thresholdNone? ?_ _ _
    rw [List.forall₂_map_left_iff, List.forall₂_map_right_iff]
    exact each.imp fun _ _ counts => counts.dissat

end Budget

namespace Typed

variable {κ δ : Type} [KeyLike κ] [DigestLike δ] {context : Context} {t : Typed κ δ}

/-- The bounds on witnesses in the budget of a condition are the exact ones, measure by measure, but for
those that no word can count. -/
theorem Validated.counts_budget (valid : Validated context t) (m : Usage.Tally) :
    t.budget.Counts m (t.exactBudget context) := by
  have kept {t : Typed κ δ} (valid : Validated context t) {whole : Budget Word} {exact : Budget Nat}
      (counts : whole.Counts m exact) (spent : t.budget = whole.withoutMixedPaths)
      (same : t.exactBudget context = exact.withoutMixedPaths) :
      t.budget.Counts m (t.exactBudget context) := by
    have paths : whole.lockPaths = exact.lockPaths := by
      have outlines := congrArg Budget.lockPaths valid.outline_budget
      rwa [spent, same] at outlines
    rw [spent, same]
    exact counts.withoutMixedPaths paths
  induction t using Typed.induct with
  | leaf note l => exact kept valid (Budget.counts_ofLeaf context l) valid.spent (exactBudget_leaf ..)
  | wrap note w x ih =>
    exact kept valid ((ih valid.wrap.1).wrap w) valid.spent (exactBudget_wrap ..)
  | pair note op x y ihX ihY =>
    obtain ⟨validX, validY, _⟩ := valid.pair
    exact kept valid ((ihX validX).pair (ihY validY) op) valid.spent (exactBudget_pair ..)
  | andOr note x y z ihX ihY ihZ =>
    obtain ⟨validX, validY, validZ, _⟩ := valid.andOr
    exact kept valid ((ihX validX).andOr (ihY validY) (ihZ validZ)) valid.spent (exactBudget_andOr ..)
  | thresh note k items ih =>
    refine kept valid (Budget.counts_threshold ?_ k) valid.spent (exactBudget_thresh ..)
    rw [List.forall₂_map_left_iff, List.forall₂_map_right_iff, List.forall₂_same]
    exact fun x member => ih x member (valid.thresh.1 x member)

/-- Where there is an exact bound there is one in words, of which all measures are exact that a word can
count. -/
theorem Validated.exists_sat_counts (valid : Validated context t) {exact : Usage Nat}
    (known : (t.exactBudget context).sat = some exact) :
    ∃ usage, t.budget.sat = some usage ∧ ∀ m, usage.Counts m exact := by
  have related (m : Usage.Tally) := (valid.counts_budget m).sat
  rw [known] at related
  cases bounded : t.budget.sat with
  | none =>
    rw [bounded] at related
    cases related .witnessSize
  | some usage =>
    rw [bounded] at related
    exact ⟨usage, rfl, fun m => by cases related m with | some counts => exact counts⟩

end Typed

end LockScript
