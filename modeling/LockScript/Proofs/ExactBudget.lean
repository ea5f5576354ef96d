import LockScript.Proofs.ExactUsage

/-! # Budgets without wrap-around

The rules for budgets over natural numbers give each condition an exact budget. No measure of a witness
in it is above six times the size of the script, so a budget in words is the exact one, number by
number, unless the script has about as many bytes as a word can count.
-/

namespace LockScript

open Quantity (amount)

attribute [ext] Budget

namespace Budget

variable {ν μ : Type}

/-- The same budget in other quantities. -/
def map (f : ν → μ) (budget : Budget ν) : Budget μ where
  scriptSize := f budget.scriptSize
  freeVerify := budget.freeVerify
  opcodes := f budget.opcodes
  sat := budget.sat.map (Usage.map f)
  dissat := budget.dissat.map (Usage.map f)
  lockUse := budget.lockUse
  lockPaths := budget.lockPaths
  height := budget.height

/-- A budget in words. -/
abbrev toWords (budget : Budget Nat) : Budget Word :=
  budget.map amount

/-- No measure of a witness is above six times the size of the script. -/
structure Modest (budget : Budget Nat) : Prop where
  sat : ∀ u ∈ budget.sat, u.AtMost (6 * budget.scriptSize)
  dissat : ∀ u ∈ budget.dissat, u.AtMost (6 * budget.scriptSize)

section Leaves

variable {κ δ : Type} [KeyLike κ] [DigestLike δ] {context : Context}

theorem toWords_ofLeaf (l : Leaf κ δ) :
    (ofLeaf context l : Budget Nat).toWords = ofLeaf context l := by
  cases l <;> rfl

theorem keyLength_le (context : Context) (key : κ) : 33 ≤ context.keyLength key ∧ context.keyLength key ≤ 66 := by
  cases context <;> simp only [Context.keyLength] <;> (try split) <;> decide

theorem length_le_sumOf {α : Type} {f : α → Nat} {least : Nat} {items : List α}
    (positive : ∀ x ∈ items, least ≤ f x) : least * items.length ≤ sumOf f items := by
  induction items with
  | nil => exact Nat.zero_le _
  | cons x rest ih =>
    obtain ⟨head, below⟩ := List.forall_mem_cons.mp positive
    rw [List.length_cons, Nat.mul_succ, Nat.add_comm]
    exact Nat.add_le_add head (ih below)

theorem numberLength_pos (number : Nat) : 1 ≤ numberLength number := by
  unfold numberLength
  split_ifs <;> decide

private theorem modest_of_atMost {budget : Budget Nat} {sat : Usage Nat} (bound : Nat)
    (isSat : budget.sat = some sat) (within : sat.AtMost bound)
    (isDissat : ∀ u ∈ budget.dissat, u.AtMost bound) (large : bound ≤ 6 * budget.scriptSize) :
    budget.Modest where
  sat u member := by
    obtain rfl := Option.some.inj (isSat.symm.trans member)
    exact within.mono large
  dissat u member := (isDissat u member).mono large

private theorem modest_lock (value : Nat) (kinds : LockKinds) :
    (lock value kinds : Budget Nat).Modest := by
  refine modest_of_atMost 1 rfl (Usage.atMost_pushes ?_ ?_ ?_ ?_) nofun ?_
  · decide
  · decide
  · decide
  · decide
  · change 1 ≤ 6 * (numberLength value + 1)
    omega

theorem modest_ofLeaf (l : Leaf κ δ) : (ofLeaf context l : Budget Nat).Modest := by
  have sole {u : Usage Nat} {bound : Nat} (within : u.AtMost bound) : ∀ u' ∈ some u, u'.AtMost bound := by
    rintro _ ⟨⟩
    exact within
  have signature : signatureSize context.scheme ≤ 73 := by cases context.scheme <;> decide
  have nothing : (Usage.nothing : Usage Nat).AtMost (6 * 1) := by constructor <;> decide
  cases l with
  | one => exact ⟨sole nothing, nofun⟩
  | zero => exact ⟨nofun, sole nothing⟩
  | key k =>
    have long := (keyLength_le context k).1
    have one : 1 ≤ 73 := by decide
    refine modest_of_atMost 73 rfl (Usage.atMost_pushes signature one signature one)
      (sole (Usage.atMost_pushes one one one one)) ?_
    change 73 ≤ 6 * context.keyLength k
    omega
  | keyHash k =>
    have long := (keyLength_le context k).2
    have both : signatureSize context.scheme + context.keyLength k ≤ 139 := by omega
    have revealed : 1 + context.keyLength k ≤ 139 := by omega
    have two : 2 ≤ 139 := by decide
    exact modest_of_atMost 139 rfl (Usage.atMost_pushes both two both two)
      (sole (Usage.atMost_pushes revealed two revealed two)) (by decide : 139 ≤ 6 * 24)
  | after l => exact modest_lock _ _
  | older l => exact modest_lock _ _
  | digest d =>
    have within : (Usage.pushes 33 1 33 2 : Usage Nat).AtMost 33 := by constructor <;> decide
    refine modest_of_atMost 33 rfl within (sole within) ?_
    change 33 ≤ 6 * (7 + (DigestLike.kind d).width)
    omega
  | multi ks =>
    let bound := 6 * (numberLength ks.k + numberLength ks.items.length + 1 +
      sumOf context.keyLength ks.items)
    have keys := length_le_sumOf fun key (_ : key ∈ ks.items) => (keyLength_le context key).1
    have few := ks.k_le
    have size : 1 + 73 * ks.k ≤ bound := by omega
    have count : ks.k + 1 ≤ bound := by omega
    have all : ks.items.length ≤ bound := by omega
    exact modest_of_atMost bound rfl ⟨size, count, size, all, all⟩
      (sole ⟨count, count, count, all, all⟩) (Nat.le_refl _)
  | multiA ks =>
    let bound := 6 * (sumOf (fun key => context.keyLength key + 1) ks.items + numberLength ks.k + 1)
    have keys := length_le_sumOf fun key (_ : key ∈ ks.items) =>
      Nat.succ_le_succ (keyLength_le context key).1
    have signatures := Nat.mul_le_mul (Nat.pred_le_pred signature) ks.k_le
    have size : ks.items.length + (signatureSize context.scheme - 1) * ks.k ≤ bound := by
      simp only [Nat.pred_eq_sub_one, Nat.succ_eq_add_one] at signatures keys
      omega
    have all : ks.items.length ≤ bound := by
      simp only [Nat.succ_eq_add_one] at keys
      omega
    have two : 2 ≤ bound := by omega
    exact modest_of_atMost bound rfl (Usage.atMost_pushes size all size two)
      (sole (Usage.atMost_pushes all all all two)) (Nat.le_refl _)

end Leaves

section Rules

variable {x y z : Budget Nat}

theorem Modest.withoutMixedPaths (modest : x.Modest) : x.withoutMixedPaths.Modest where
  sat u member := by
    change u ∈ (if _ then x.sat else none) at member
    split at member
    · exact modest.sat u member
    · cases member
  dissat u member := by
    change u ∈ (if _ then x.dissat else none) at member
    split at member
    · exact modest.dissat u member
    · cases member

theorem toWords_withoutMixedPaths : x.withoutMixedPaths.toWords = x.toWords.withoutMixedPaths := by
  have keeps (kept : Bool) (usage : Option (Usage Nat)) :
      (if kept then usage else none).map Usage.toWords =
        if kept then usage.map Usage.toWords else none := by
    cases kept <;> rfl
  exact Budget.ext rfl rfl rfl (keeps _ _) (keeps _ _) rfl rfl rfl

theorem Modest.wrap (modest : x.Modest) (w : Wrapper) : (Budget.wrap w x).Modest := by
  have more {usage : Option (Usage Nat)} (cost : Nat)
      (within : ∀ u ∈ usage, u.AtMost (6 * x.scriptSize)) :
      ∀ u ∈ usage, u.AtMost (6 * (x.scriptSize + cost)) :=
    fun u member => (within u member).mono (by omega)
  have empty (cost : Nat) (positive : 1 ≤ cost) :
      ∀ u ∈ some (Usage.emptyElement : Usage Nat), u.AtMost (6 * (x.scriptSize + cost)) := by
    rintro _ ⟨⟩
    have one : 1 ≤ 6 * (x.scriptSize + cost) := by omega
    exact Usage.atMost_pushes one one one one
  cases w with
  | alt | swap | check | zeroNotEqual => exact ⟨more _ modest.sat, more _ modest.dissat⟩
  | verify => exact ⟨more _ modest.sat, nofun⟩
  | nonzero => exact ⟨more 4 modest.sat, empty 4 (by decide)⟩
  | dupIf =>
    refine ⟨fun u member => ?_, empty 3 (by decide)⟩
    refine (Usage.atMost_withSelector modest.sat (by decide) u member).mono ?_
    change 6 * x.scriptSize + 2 ≤ 6 * (x.scriptSize + 3)
    omega

theorem toWords_wrap (w : Wrapper) : (Budget.wrap w x).toWords = Budget.wrap w x.toWords := by
  have add (a b : Nat) : (amount (a + b) : Word) = amount a + amount b := LawfulQuantity.amount_add a b
  cases w with
  | dupIf => exact Budget.ext (add _ _) rfl (add _ _) (Usage.toWords_withSelector? 2) rfl rfl rfl rfl
  | alt | swap | check | verify | nonzero | zeroNotEqual =>
    exact Budget.ext (add _ _) rfl (add _ _) rfl rfl rfl rfl rfl

theorem toWords_joined (items : List (Budget Nat)) (opcodes : Nat) (sat dissat : Option (Usage Nat))
    (lockUse : LockUse) (lockPaths : LockPaths) :
    (joined items opcodes sat dissat lockUse lockPaths).toWords =
      joined (items.map toWords) opcodes (sat.map Usage.toWords) (dissat.map Usage.toWords) lockUse
        lockPaths := by
  have add (measure : Budget Nat → Nat) (measure' : Budget Word → Word)
      (same : ∀ x, (amount (measure x) : Word) = measure' x.toWords) :
      (amount (Quantity.total (items.map measure) + opcodes) : Word) =
        Quantity.total ((items.map toWords).map measure') + amount opcodes := by
    rw [LawfulQuantity.amount_add, Quantity.amount_total, List.map_map, List.map_map]
    exact congrArg (Quantity.total · + _) (List.map_congr_left fun x _ => same x)
  refine Budget.ext (add _ _ fun _ => rfl) rfl (add _ _ fun _ => rfl) rfl rfl rfl rfl ?_
  change 1 + (items.map height).foldr max 0 = 1 + ((items.map toWords).map height).foldr max 0
  rw [List.map_map]
  rfl

section Joined

open Usage (followedBy? worst? atMost_followedBy? atMost_worst? atMost_withSelector
  toWords_followedBy? toWords_worst? toWords_withSelector?)

private theorem within_mono {usage : Option (Usage Nat)} {m n : Nat} (within : ∀ u ∈ usage, u.AtMost m)
    (le : m ≤ n) : ∀ u ∈ usage, u.AtMost n :=
  fun u member => (within u member).mono le

/-- Joining two children adds as many bytes as opcodes, more than enough for what their witnesses and
the stacks hold in addition. -/
theorem Modest.pair (modestX : x.Modest) (modestY : y.Modest) (op : Connective) :
    (Budget.pair op x y).Modest := by
  have sequence {first second : Option (Usage Nat)} (within : ∀ u ∈ first, u.AtMost (6 * x.scriptSize))
      (within' : ∀ u ∈ second, u.AtMost (6 * y.scriptSize)) (shift : Nat) :=
    atMost_followedBy? within within' shift
  have alone {first : Option (Usage Nat)} (within : ∀ u ∈ first, u.AtMost (6 * x.scriptSize)) :
      ∀ u ∈ first, u.AtMost (6 * x.scriptSize + 6 * y.scriptSize + 0) := within_mono within (by omega)
  have branches {first second : Option (Usage Nat)} (within : ∀ u ∈ first, u.AtMost (6 * x.scriptSize))
      (within' : ∀ u ∈ second, u.AtMost (6 * y.scriptSize)) :
      ∀ u ∈ worst? (first.map (·.withSelector 2)) (second.map (·.withSelector 1)),
        u.AtMost (6 * x.scriptSize + 6 * y.scriptSize + 2) :=
    atMost_worst? (within_mono (atMost_withSelector within (by decide)) (by omega))
      (within_mono (atMost_withSelector within' (by decide)) (by omega))
  have large (cost shift : Nat) (le : shift ≤ 6 * cost) :
      6 * x.scriptSize + 6 * y.scriptSize + shift ≤ 6 * (x.scriptSize + (y.scriptSize + 0) + cost) := by
    omega
  cases op with
  | andV => exact ⟨within_mono (sequence modestX.sat modestY.sat 0) (large 0 0 (by decide)), nofun⟩
  | andB =>
    exact ⟨within_mono (sequence modestX.sat modestY.sat 1) (large 1 1 (by decide)),
      within_mono (sequence modestX.dissat modestY.dissat 1) (large 1 1 (by decide))⟩
  | orB =>
    exact ⟨within_mono (atMost_worst? (sequence modestX.sat modestY.dissat 1)
        (sequence modestX.dissat modestY.sat 1)) (large 1 1 (by decide)),
      within_mono (sequence modestX.dissat modestY.dissat 1) (large 1 1 (by decide))⟩
  | orD =>
    exact ⟨within_mono (atMost_worst? (alone modestX.sat) (sequence modestX.dissat modestY.sat 0))
        (large 3 0 (by decide)),
      within_mono (sequence modestX.dissat modestY.dissat 1) (large 3 1 (by decide))⟩
  | orC =>
    exact ⟨within_mono (atMost_worst? (alone modestX.sat) (sequence modestX.dissat modestY.sat 0))
        (large 2 0 (by decide)), nofun⟩
  | orI =>
    exact ⟨within_mono (branches modestX.sat modestY.sat) (large 3 2 (by decide)),
      within_mono (branches modestX.dissat modestY.dissat) (large 3 2 (by decide))⟩

theorem toWords_pair (modestX : x.Modest) (modestY : y.Modest) (op : Connective)
    (narrow : 6 * x.scriptSize + 6 * y.scriptSize + 2 < Quantity.wordRange) :
    (Budget.pair op x y).toWords = Budget.pair op x.toWords y.toWords := by
  have sequence {first second : Option (Usage Nat)} {shift : Nat} (le : shift ≤ 1)
      (within : ∀ u ∈ first, u.AtMost (6 * x.scriptSize))
      (within' : ∀ u ∈ second, u.AtMost (6 * y.scriptSize)) :=
    toWords_followedBy? within within' (by omega : _ + _ + shift < Quantity.wordRange)
  have either {first second : Option (Usage Nat)} {shift shift' : Nat} (le : shift ≤ 2)
      (le' : shift' ≤ 2) (within : ∀ u ∈ first, u.AtMost (6 * x.scriptSize + 6 * y.scriptSize + shift))
      (within' : ∀ u ∈ second, u.AtMost (6 * x.scriptSize + 6 * y.scriptSize + shift')) :=
    toWords_worst? (within_mono within (Nat.add_le_add_left le _))
      (within_mono within' (Nat.add_le_add_left le' _)) narrow
  have alone : ∀ u ∈ x.sat, u.AtMost (6 * x.scriptSize + 6 * y.scriptSize + 0) :=
    within_mono modestX.sat (by omega)
  have branches {first second : Option (Usage Nat)} (within : ∀ u ∈ first, u.AtMost (6 * x.scriptSize))
      (within' : ∀ u ∈ second, u.AtMost (6 * y.scriptSize)) :
      (worst? (first.map (·.withSelector 2)) (second.map (·.withSelector 1))).map Usage.toWords =
        worst? ((first.map Usage.toWords).map (·.withSelector 2))
          ((second.map Usage.toWords).map (·.withSelector 1)) := by
    rw [toWords_worst? (within_mono (atMost_withSelector within (by decide)) (by omega))
      (within_mono (atMost_withSelector within' (by decide)) (by omega)) narrow,
      toWords_withSelector?, toWords_withSelector?]
  have joins {cost : Nat} {sat dissat : Option (Usage Nat)} {sat' dissat' : Option (Usage Word)}
      (lockUse : LockUse) (lockPaths : LockPaths) (same : sat.map Usage.toWords = sat')
      (same' : dissat.map Usage.toWords = dissat') :
      (joined [x, y] cost sat dissat lockUse lockPaths).toWords =
        joined [x.toWords, y.toWords] cost sat' dissat' lockUse lockPaths := by
    rw [← same, ← same']
    exact toWords_joined [x, y] cost sat dissat lockUse lockPaths
  have one : 1 ≤ 1 := Nat.le_refl 1
  cases op with
  | andV =>
    have whole : (joined [x, y] 0 (followedBy? x.sat y.sat 0) none (x.lockUse.and y.lockUse)
        ⟨x.lockPaths.sat.join y.lockPaths.sat, .empty⟩).toWords = _ :=
      joins _ _ (sequence (Nat.zero_le 1) modestX.sat modestY.sat) rfl
    exact congrArg (fun whole : Budget Word => { whole with freeVerify := y.freeVerify }) whole
  | andB => exact joins _ _ (sequence one modestX.sat modestY.sat) (sequence one modestX.dissat modestY.dissat)
  | orB =>
    refine joins _ _ ?_ (sequence one modestX.dissat modestY.dissat)
    rw [either (by decide) (by decide) (atMost_followedBy? modestX.sat modestY.dissat 1)
      (atMost_followedBy? modestX.dissat modestY.sat 1), sequence one modestX.sat modestY.dissat,
      sequence one modestX.dissat modestY.sat]
    rfl
  | orD =>
    refine joins _ _ ?_ (sequence one modestX.dissat modestY.dissat)
    rw [either (by decide) (by decide) alone (atMost_followedBy? modestX.dissat modestY.sat 0),
      sequence (Nat.zero_le 1) modestX.dissat modestY.sat]
    rfl
  | orC =>
    refine joins _ _ ?_ rfl
    rw [either (by decide) (by decide) alone (atMost_followedBy? modestX.dissat modestY.sat 0),
      sequence (Nat.zero_le 1) modestX.dissat modestY.sat]
    rfl
  | orI => exact joins _ _ (branches modestX.sat modestY.sat) (branches modestX.dissat modestY.dissat)

theorem Modest.andOr (modestX : x.Modest) (modestY : y.Modest) (modestZ : z.Modest) :
    (Budget.andOr x y z).Modest := by
  have large : 6 * x.scriptSize + 6 * y.scriptSize + 6 * z.scriptSize ≤
      6 * (x.scriptSize + (y.scriptSize + (z.scriptSize + 0)) + 3) := by omega
  refine ⟨within_mono (atMost_worst?
    (within_mono (atMost_followedBy? modestX.sat modestY.sat 0) (by omega))
    (within_mono (atMost_followedBy? modestX.dissat modestZ.sat 0) (by omega))) large, ?_⟩
  exact within_mono (atMost_followedBy? modestX.dissat modestZ.dissat 0) (by
    change _ ≤ 6 * (x.scriptSize + (y.scriptSize + (z.scriptSize + 0)) + 3)
    omega)

theorem toWords_andOr (modestX : x.Modest) (modestY : y.Modest) (modestZ : z.Modest)
    (narrow : 6 * x.scriptSize + 6 * y.scriptSize + 6 * z.scriptSize < Quantity.wordRange) :
    (Budget.andOr x y z).toWords = Budget.andOr x.toWords y.toWords z.toWords := by
  have joins {sat dissat : Option (Usage Nat)} {sat' dissat' : Option (Usage Word)}
      (lockUse : LockUse) (lockPaths : LockPaths) (same : sat.map Usage.toWords = sat')
      (same' : dissat.map Usage.toWords = dissat') :
      (joined [x, y, z] 3 sat dissat lockUse lockPaths).toWords =
        joined [x.toWords, y.toWords, z.toWords] 3 sat' dissat' lockUse lockPaths := by
    rw [← same, ← same']
    exact toWords_joined [x, y, z] 3 sat dissat lockUse lockPaths
  refine joins _ _ ?_ (toWords_followedBy? modestX.dissat modestZ.dissat (by omega))
  rw [toWords_worst? (within_mono (atMost_followedBy? modestX.sat modestY.sat 0) (by omega))
    (within_mono (atMost_followedBy? modestX.dissat modestZ.sat 0) (by omega)) narrow,
    toWords_followedBy? modestX.sat modestY.sat (by omega),
    toWords_followedBy? modestX.dissat modestZ.sat (by omega)]
  rfl

end Joined

section Threshold

/-- What the runs of children add to the stacks. -/
def execs (items : List (Budget ν)) : List ν :=
  items.flatMap fun x => (x.sat.toList ++ x.dissat.toList).map (·.execItems)

theorem threshold_eq [Quantity ν] (k : Nat) (items : List (Budget ν)) : Budget.threshold k items =
    let execItems := Quantity.largest (execs items) + amount 1
    let whole := joined items items.length
      (Usage.threshold? k execItems (items.map fun x => (x.sat, x.dissat)))
      (Usage.thresholdNone? execItems (items.map dissat))
      (.threshold k (items.map lockUse)) (.threshold k (items.map lockPaths))
    { whole with scriptSize := whole.scriptSize + amount (numberLength k), freeVerify := true } :=
  rfl

variable {k : Nat} {items : List (Budget Nat)}

private theorem exec_le {bound : Nat} (modest : ∀ x ∈ items, x.Modest)
    (low : ∀ x ∈ items, 6 * x.scriptSize ≤ bound) : ∀ n ∈ execs items, n ≤ bound := by
  intro n member
  obtain ⟨x, among, own⟩ := List.mem_flatMap.mp member
  obtain ⟨u, within, rfl⟩ := List.mem_map.mp own
  refine le_trans ?_ (low x among)
  rcases List.mem_append.mp within with member | member
  · exact ((modest x among).sat u (Option.mem_toList.mp member)).execItems
  · exact ((modest x among).dissat u (Option.mem_toList.mp member)).execItems

private theorem execs_toWords (items : List (Budget Nat)) :
    execs (items.map toWords) = (execs items).map amount := by
  have own (usage : Option (Usage Nat)) : (usage.map Usage.toWords).toList.map Usage.execItems =
      (usage.toList.map Usage.execItems).map amount := by
    cases usage <;> rfl
  rw [execs, execs, List.flatMap_map, List.map_flatMap]
  refine List.flatMap_congr fun x _ => ?_
  rw [List.map_append, List.map_append, List.map_append, ← own, ← own]
  rfl

private theorem le_sum {x : Budget Nat} (member : x ∈ items) :
    6 * x.scriptSize ≤ 6 * (items.map scriptSize).sum :=
  Nat.mul_le_mul_left 6 (List.single_le_sum (fun _ _ => Nat.zero_le _) _ (List.mem_map_of_mem member))

theorem Modest.threshold (modest : ∀ x ∈ items, x.Modest) : (Budget.threshold k items).Modest := by
  have each : List.Forall₂ (fun (x : Budget Nat) bound => (∀ u ∈ x.sat, u.AtMost bound) ∧
      ∀ u ∈ x.dissat, u.AtMost bound) items (items.map fun x => 6 * x.scriptSize) := by
    rw [List.forall₂_map_right_iff, List.forall₂_same]
    exact fun x member => ⟨(modest x member).sat, (modest x member).dissat⟩
  have sum : (items.map fun x => 6 * x.scriptSize).sum = 6 * (items.map scriptSize).sum := by
    clear * -
    induction items with
    | nil => rfl
    | cons x items ih =>
      rw [List.map_cons, List.sum_cons, ih, List.map_cons, List.sum_cons, Nat.mul_add]
  have long := numberLength_pos k
  have large : 6 * (items.map scriptSize).sum + 1 ≤
      6 * ((items.map scriptSize).sum + items.length + numberLength k) := by omega
  have exec := Quantity.largest_le (exec_le modest fun x member => le_sum member)
  constructor
  · refine within_mono (Usage.atMost_threshold? ?_ (Nat.le_succ_of_le (Nat.le_of_eq sum))
      (Nat.add_le_add_right exec 1)) large
    rw [List.forall₂_map_left_iff]
    exact each
  · refine within_mono (Usage.atMost_thresholdNone? ?_ (Nat.le_succ_of_le (Nat.le_of_eq sum))
      (Nat.add_le_add_right exec 1)) large
    rw [List.forall₂_map_left_iff]
    exact each.imp fun _ _ => And.right

theorem toWords_threshold (modest : ∀ x ∈ items, x.Modest)
    (narrow : 6 * (items.map scriptSize).sum < Quantity.wordRange) :
    (Budget.threshold k items).toWords = Budget.threshold k (items.map toWords) := by
  have exec : (amount (Quantity.largest (execs items) + 1) : Word) =
      Quantity.largest (execs (items.map toWords)) + amount 1 := by
    have bounded := exec_le modest fun x member => le_sum member
    rw [LawfulQuantity.amount_add, execs_toWords,
      Quantity.amount_largest fun n member => Nat.lt_of_le_of_lt (bounded n member) narrow]
  have fields {α : Type} (field : Budget Nat → α) (field' : Budget Word → α)
      (same : ∀ x, field' x.toWords = field x) : (items.map toWords).map field' = items.map field := by
    rw [List.map_map]
    exact List.map_congr_left fun x _ => same x
  have within : ∀ pair ∈ items.map fun x => (x.sat, x.dissat),
      (∀ u ∈ pair.1, Usage.AtMost u (6 * (items.map scriptSize).sum)) ∧
        ∀ u ∈ pair.2, Usage.AtMost u (6 * (items.map scriptSize).sum) := by
    refine List.forall_mem_map.mpr fun x member => ?_
    exact ⟨within_mono (modest x member).sat (le_sum member),
      within_mono (modest x member).dissat (le_sum member)⟩
  have sat : (Usage.threshold? k (Quantity.largest (execs items) + 1)
        (items.map fun x => (x.sat, x.dissat))).map Usage.toWords =
      Usage.threshold? k (Quantity.largest (execs (items.map toWords)) + amount 1)
        ((items.map toWords).map fun x => (x.sat, x.dissat)) := by
    rw [Usage.toWords_threshold? within narrow, exec, List.map_map, List.map_map]
    rfl
  have dissat : (Usage.thresholdNone? (Quantity.largest (execs items) + 1)
        (items.map dissat)).map Usage.toWords =
      Usage.thresholdNone? (Quantity.largest (execs (items.map toWords)) + amount 1)
        ((items.map toWords).map Budget.dissat) := by
    rw [Usage.toWords_thresholdNone?, exec, List.map_map, List.map_map]
    rfl
  have whole := toWords_joined items items.length
    (Usage.threshold? k (Quantity.largest (execs items) + 1) (items.map fun x => (x.sat, x.dissat)))
    (Usage.thresholdNone? (Quantity.largest (execs items) + 1) (items.map Budget.dissat))
    (.threshold k (items.map lockUse)) (.threshold k (items.map lockPaths))
  rw [sat, dissat] at whole
  simp only [threshold_eq, List.length_map, fields lockUse lockUse fun _ => rfl,
    fields lockPaths lockPaths fun _ => rfl, ← whole]
  exact Budget.ext (LawfulQuantity.amount_add _ _) rfl rfl rfl rfl rfl rfl rfl

end Threshold

end Rules

end Budget

namespace Budget

variable {κ δ : Type} [KeyLike κ] [DigestLike δ] {context : Context}

/-- A script holds those of all children. -/
theorem sum_scriptSize_le (context : Context) (fragment : Fragment κ δ (Budget Nat)) :
    (fragment.children.map scriptSize).sum ≤ (ofFragment context fragment).scriptSize := by
  have grows (x : Budget Nat) (cost : Nat) : [x.scriptSize].sum ≤ x.scriptSize + cost := by
    simp
  cases fragment with
  | leaf l => exact Nat.zero_le _
  | wrap w x => cases w <;> exact grows x _
  | pair op x y => cases op <;> exact Nat.le_add_right _ _
  | andOr x y z => exact Nat.le_add_right _ _
  | thresh k items =>
    change (items.map scriptSize).sum ≤ (items.map scriptSize).sum + items.length + numberLength k
    omega

/-- Counting in words what was counted exactly comes to the same as counting in words. -/
theorem toWords_ofFragment (fragment : Fragment κ δ (Budget Nat))
    (modest : ∀ x ∈ fragment.children, x.Modest)
    (narrow : (ofFragment context fragment).scriptSize < 2 ^ 60) :
    (ofFragment context fragment).toWords = ofFragment context (fragment.map toWords) := by
  have small := Nat.lt_of_le_of_lt (sum_scriptSize_le context fragment) narrow
  refine toWords_withoutMixedPaths.trans (congrArg withoutMixedPaths ?_)
  cases fragment with
  | leaf l => exact toWords_ofLeaf l
  | wrap w x => exact toWords_wrap w
  | pair op x y =>
    obtain ⟨modestX, modestY⟩ := List.forall_mem_cons.mp modest
    refine toWords_pair modestX (List.forall_mem_singleton.mp modestY) op (show _ < 2 ^ 64 from ?_)
    simp only [Fragment.children, List.map_cons, List.map_nil, List.sum_cons, List.sum_nil] at small
    omega
  | andOr x y z =>
    obtain ⟨modestX, modest⟩ := List.forall_mem_cons.mp modest
    obtain ⟨modestY, modestZ⟩ := List.forall_mem_cons.mp modest
    refine toWords_andOr modestX modestY (List.forall_mem_singleton.mp modestZ) (show _ < 2 ^ 64 from ?_)
    simp only [Fragment.children, List.map_cons, List.map_nil, List.sum_cons, List.sum_nil] at small
    omega
  | thresh k items =>
    refine toWords_threshold modest (show _ < 2 ^ 64 from ?_)
    simp only [Fragment.children] at small
    omega

end Budget

namespace Fragment

variable {κ δ σ τ υ : Type}

theorem children_map (f : σ → τ) (fragment : Fragment κ δ σ) :
    (fragment.map f).children = fragment.children.map f := by
  cases fragment <;> rfl

theorem map_map_of_children {f : σ → τ} {g : τ → υ} {h : σ → υ} {fragment : Fragment κ δ σ}
    (same : ∀ x ∈ fragment.children, g (f x) = h x) : (fragment.map f).map g = fragment.map h := by
  cases fragment with
  | leaf l => rfl
  | wrap w x => simpa [map, children] using same
  | pair op x y => simpa [map, children] using same
  | andOr x y z => simpa [map, children] using same
  | thresh k items => simpa [map, children] using same

end Fragment

/-- Stands in for a missing child. -/
instance {ν : Type} [Quantity ν] : Inhabited (Budget ν) := ⟨.zero⟩

namespace Typed

section Rule

variable {κ δ : Type} [KeyLike κ] [DigestLike δ] (context : Context)

/-- The budget of a condition in natural numbers. -/
def exactBudget (t : Typed κ δ) : Budget Nat :=
  Traversal.bottomUp (fun x items => Budget.ofFragment context (x.fragment.withChildren items)) t

theorem exactBudget_eq (t : Typed κ δ) :
    t.exactBudget context = Budget.ofFragment context (t.fragment.map (exactBudget context)) :=
  Condition.bottomUp_fragment (Budget.ofFragment context) t

@[simp] theorem exactBudget_leaf (note : Attributes) (l : Leaf κ δ) :
    exactBudget context (.leaf note l) = (Budget.ofLeaf context l).withoutMixedPaths :=
  exactBudget_eq context _

@[simp] theorem exactBudget_wrap (note : Attributes) (w : Wrapper) (x : Typed κ δ) :
    exactBudget context (.wrap note w x) =
      (Budget.wrap w (x.exactBudget context)).withoutMixedPaths :=
  exactBudget_eq context _

@[simp] theorem exactBudget_pair (note : Attributes) (op : Connective) (x y : Typed κ δ) :
    exactBudget context (.pair note op x y) =
      (Budget.pair op (x.exactBudget context) (y.exactBudget context)).withoutMixedPaths :=
  exactBudget_eq context _

@[simp] theorem exactBudget_andOr (note : Attributes) (x y z : Typed κ δ) :
    exactBudget context (.andOr note x y z) = (Budget.andOr (x.exactBudget context)
      (y.exactBudget context) (z.exactBudget context)).withoutMixedPaths :=
  exactBudget_eq context _

@[simp] theorem exactBudget_thresh (note : Attributes) (k : Nat) (items : List (Typed κ δ)) :
    exactBudget context (.thresh note k items) =
      (Budget.threshold k (items.map (exactBudget context))).withoutMixedPaths :=
  exactBudget_eq context _

theorem modest_exactBudget (t : Typed κ δ) : (t.exactBudget context).Modest := by
  induction t using Typed.induct with
  | leaf note l =>
    rw [exactBudget_leaf]
    exact (Budget.modest_ofLeaf l).withoutMixedPaths
  | wrap note w x ih =>
    rw [exactBudget_wrap]
    exact (ih.wrap w).withoutMixedPaths
  | pair note op x y ihX ihY =>
    rw [exactBudget_pair]
    exact (ihX.pair ihY op).withoutMixedPaths
  | andOr note x y z ihX ihY ihZ =>
    rw [exactBudget_andOr]
    exact (ihX.andOr ihY ihZ).withoutMixedPaths
  | thresh note k items ih =>
    rw [exactBudget_thresh]
    exact (Budget.Modest.threshold (List.forall_mem_map.mpr ih)).withoutMixedPaths

variable {context} {t : Typed κ δ}

/-- As long as a script has less than 2^60 bytes, nothing wraps around in its budget: no measure of a witness is
above six times that size, so that the sums and maxima of a fragment stay below 2^64. -/
theorem Validated.budget_eq (valid : Validated context t)
    (narrow : (t.exactBudget context).scriptSize < 2 ^ 60) :
    t.budget = (t.exactBudget context).toWords := by
  induction t using Condition.induct_children with
  | node t ih =>
    rw [exactBudget_eq] at narrow ⊢
    have modest : ∀ x ∈ (t.fragment.map (exactBudget context)).children, x.Modest := by
      rw [Fragment.children_map]
      exact List.forall_mem_map.mpr fun x _ => modest_exactBudget context x
    rw [Budget.toWords_ofFragment _ modest narrow, valid.spent,
      Fragment.map_map_of_children fun x member => (ih x member (valid.child member) ?_).symm]
    have whole := Budget.sum_scriptSize_le context (t.fragment.map (exactBudget context))
    rw [Fragment.children_map, List.map_map] at whole
    refine Nat.lt_of_le_of_lt (le_trans ?_ whole) narrow
    exact List.single_le_sum (fun _ _ => Nat.zero_le _) _ (List.mem_map_of_mem member)

end Rule

section Script

variable {κ : Type} [PublicKey κ] [LawfulPublicKey κ] {context : Context} {t : Typed κ Digest}

/-- The budget in words is the exact one, which is modest, as long as the script is not too long. -/
theorem Validated.exact (valid : Validated context t) (counts : t.CountsBelow (2 ^ 39))
    (fits : (t.script context).bytes.length < 2 ^ 60) :
    t.budget = (t.exactBudget context).toWords := by
  refine valid.budget_eq ?_
  have described := valid.describes_of_rule (fun t _ => t.exactBudget_eq context) counts
  exact lt_of_eq_of_lt described.scriptSize_eq fits

end Script

end Typed

end LockScript
