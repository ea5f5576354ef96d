import LockScript.Proofs.Attributes
import LockScript.Proofs.ExactBudget

/-! # Wrap-around by sharing

A subtree may stand in several places, so a condition of `n` levels can stand for `2^n` leaves, and
the limit on heights leaves room for more bytes of script than a word can count. The numbers of a
budget that only add up, script size and opcodes, are always the exact ones up to the range of a word.
As long as the script of a condition has less than 2^60 bytes, all budgets in it are exact. Doubling a
condition 64 times comes to a script that is counted as if all that had been doubled was not there.
-/

namespace LockScript

open Quantity (amount)

/-- A usage within the range of a word comes back from words as it was. -/
theorem Usage.AtMost.map_toNat_toWords {usage : Usage Nat} {bound : Nat} (within : usage.AtMost bound)
    (narrow : bound < Quantity.wordRange) : usage.toWords.map UInt64.toNat = usage :=
  Usage.ext (Quantity.toNat_amount (within.witnessSize.trans_lt narrow))
    (Quantity.toNat_amount (within.witnessItems.trans_lt narrow))
    (Quantity.toNat_amount (within.scriptSigSize.trans_lt narrow))
    (Quantity.toNat_amount (within.execItems.trans_lt narrow))
    (Quantity.toNat_amount (within.execOpcodes.trans_lt narrow))

namespace Budget

variable {ν : Type} {κ δ : Type} [KeyLike κ] [DigestLike δ] {context : Context}

/-! ## What only adds up -/

/-- A budget without its bounds on witnesses. -/
def outline (budget : Budget ν) : Budget ν :=
  { budget with sat := none, dissat := none }

/-- Bounds on witnesses have no influence on anything else. -/
theorem outline_ofFragment [Quantity ν] (fragment : Fragment κ δ (Budget ν)) :
    (ofFragment context fragment).outline =
      (ofFragment context (fragment.map outline)).outline := by
  cases fragment with
  | leaf l => rfl
  | wrap w x => cases w <;> rfl
  | pair op x y => cases op <;> rfl
  | andOr x y z => rfl
  | thresh k items =>
    simp only [ofFragment, Fragment.map, threshold, withoutMixedPaths, outline, joined, List.map_map,
      List.length_map, Function.comp_def]

/-- Whatever the numbers, counting in words comes to the exact counts up to the range of a word. -/
theorem outline_toWords_ofFragment (fragment : Fragment κ δ (Budget Nat)) :
    (ofFragment context fragment).toWords.outline =
      (ofFragment context (fragment.map toWords)).outline := by
  have joins (items : List (Budget Nat)) (opcodes : Nat) (sat dissat : Option (Usage Nat))
      (lockUse : LockUse) (lockPaths : LockPaths) :=
    congrArg outline (toWords_joined items opcodes sat dissat lockUse lockPaths)
  cases fragment with
  | leaf l =>
    have counted : (ofLeaf context l : Budget Nat).toWords.outline = (ofLeaf context l).outline :=
      congrArg outline (toWords_ofLeaf l)
    exact counted
  | wrap w x =>
    have counted : (wrap w x).toWords.outline = (wrap w x.toWords).outline :=
      congrArg outline (toWords_wrap w)
    exact counted
  | pair op x y =>
    cases op with
    | andV =>
      exact congrArg (fun whole : Budget Word => { whole with freeVerify := y.freeVerify })
        (joins [x, y] 0 none none (x.lockUse.and y.lockUse)
          ⟨x.lockPaths.sat.join y.lockPaths.sat, .empty⟩)
    | andB | orB | orD | orC | orI => exact joins [x, y] _ _ _ _ _
  | andOr x y z => exact joins [x, y, z] _ _ _ _ _
  | thresh k items =>
    have whole := joins items items.length none none (.threshold k (items.map lockUse))
      (.threshold k (items.map lockPaths))
    refine Budget.ext ?_ rfl ?_ rfl rfl ?_ ?_ ?_
    · refine (LawfulQuantity.amount_add _ _).trans (congrArg (· + amount (numberLength k)) ?_)
      change _ = Quantity.total _ + amount (items.map toWords).length
      rw [List.length_map]
      exact congrArg scriptSize whole
    · change _ = Quantity.total _ + amount (items.map toWords).length
      rw [List.length_map]
      exact congrArg Budget.opcodes whole
    · refine congrArg (LockUse.threshold k) ?_
      rw [List.map_map]
      rfl
    · refine congrArg (LockPaths.threshold k) ?_
      rw [List.map_map]
      rfl
    · have high := congrArg height whole
      exact high

/-! ## What fits into words -/

/-- Every opcode takes a byte of the script. -/
theorem opcodes_le_ofLeaf (l : Leaf κ δ) :
    (ofLeaf context l : Budget Nat).opcodes ≤ (ofLeaf context l : Budget Nat).scriptSize := by
  cases l with
  | one | zero => exact Nat.zero_le _
  | key k => exact Nat.zero_le _
  | keyHash k => exact show 3 ≤ 24 by decide
  | after lock => exact Nat.le_add_left 1 _
  | older lock => exact Nat.le_add_left 1 _
  | digest d => exact show 4 ≤ 7 + _ by omega
  | multi ks => exact show 1 ≤ _ + 1 + _ by omega
  | multiA ks =>
    have keys := length_le_sumOf fun key (_ : key ∈ ks.items) =>
      Nat.le_add_left 1 (context.keyLength key)
    change ks.items.length + 1 ≤ sumOf (fun key => context.keyLength key + 1) ks.items + _ + 1
    omega

theorem opcodes_le_ofFragment (fragment : Fragment κ δ (Budget Nat))
    (below : ∀ x ∈ fragment.children, x.opcodes ≤ x.scriptSize) :
    (ofFragment context fragment).opcodes ≤ (ofFragment context fragment).scriptSize := by
  have sums {items : List (Budget Nat)} (below : ∀ x ∈ items, x.opcodes ≤ x.scriptSize) :
      (items.map Budget.opcodes).sum ≤ (items.map scriptSize).sum := List.sum_le_sum below
  cases fragment with
  | leaf l => exact opcodes_le_ofLeaf l
  | wrap w x =>
    have cost := below x List.mem_cons_self
    cases w <;> exact Nat.add_le_add_right cost _
  | pair op x y => cases op <;> exact Nat.add_le_add_right (sums below) _
  | andOr x y z => exact Nat.add_le_add_right (sums below) _
  | thresh k items =>
    exact (Nat.add_le_add_right (sums below) items.length).trans (Nat.le_add_right _ _)

/-- A modest budget of a short script comes back from words as it was. -/
theorem Modest.map_toNat_toWords {budget : Budget Nat} (modest : budget.Modest)
    (opcodes : budget.opcodes ≤ budget.scriptSize) (narrow : budget.scriptSize < 2 ^ 60) :
    budget.toWords.map UInt64.toNat = budget := by
  have size : 6 * budget.scriptSize < Quantity.wordRange := by
    change _ < 2 ^ 64
    omega
  have usages {usage : Option (Usage Nat)} (within : ∀ u ∈ usage, u.AtMost (6 * budget.scriptSize)) :
      (usage.map Usage.toWords).map (Usage.map UInt64.toNat) = usage := by
    cases usage with
    | none => rfl
    | some u => exact congrArg some ((within u rfl).map_toNat_toWords size)
  refine Budget.ext ?_ rfl ?_ (usages modest.sat) (usages modest.dissat) rfl rfl rfl
  · exact Quantity.toNat_amount (by change _ < 2 ^ 64; omega)
  · exact Quantity.toNat_amount (by change _ < 2 ^ 64; omega)

end Budget

namespace Typed

variable {κ δ : Type} [KeyLike κ] [DigestLike δ] {context : Context} {t x : Typed κ δ}

theorem opcodes_le_exactBudget (t : Typed κ δ) :
    (t.exactBudget context).opcodes ≤ (t.exactBudget context).scriptSize := by
  induction t using Condition.induct_children with
  | node t ih =>
    rw [exactBudget_eq]
    refine Budget.opcodes_le_ofFragment _ ?_
    rw [Fragment.children_map]
    exact List.forall_mem_map.mpr ih

/-- No part of a condition has a longer script than the whole. -/
theorem scriptSize_le_of_mem_preorder (below : x ∈ Traversal.preorder t) :
    (x.exactBudget context).scriptSize ≤ (t.exactBudget context).scriptSize := by
  induction t using Condition.induct_children with
  | node t ih =>
    obtain rfl | ⟨child, member, below⟩ := (Condition.mem_preorder_iff t x).mp below
    · exact Nat.le_refl _
    · refine (ih child member below).trans ?_
      have whole := Budget.sum_scriptSize_le context (t.fragment.map (exactBudget context))
      rw [Fragment.children_map, List.map_map, ← exactBudget_eq] at whole
      refine le_trans ?_ whole
      exact List.single_le_sum (fun _ _ => Nat.zero_le _) _ (List.mem_map_of_mem member)

/-- Apart from the bounds on witnesses, budgets in words are the exact ones up to the range of a word. -/
theorem Validated.outline_budget (valid : Validated context t) :
    t.budget.outline = (t.exactBudget context).toWords.outline := by
  induction t using Condition.induct_children with
  | node t ih =>
    have below : (t.fragment.map budget).map Budget.outline =
        ((t.fragment.map (exactBudget context)).map Budget.toWords).map Budget.outline := by
      rw [Fragment.map_map_of_children fun x member => ih x member (valid.child member),
        Fragment.map_map_of_children (h := fun x => (exactBudget context x).toWords) fun _ _ => rfl,
        Fragment.map_map_of_children fun _ _ => rfl]
    rw [valid.spent, Budget.outline_ofFragment, below, ← Budget.outline_ofFragment, exactBudget_eq,
      ← Budget.outline_toWords_ofFragment]

end Typed

/-! ## Doubling -/

/-- The budget of `v:1` after so many times of joining it with itself. -/
def Budget.ofDoubled {ν : Type} [Quantity ν] (times : Nat) : Budget ν where
  scriptSize := amount (2 ^ (times + 1))
  freeVerify := false
  opcodes := amount (2 ^ times)
  sat := some .nothing
  dissat := none
  lockUse := .free
  lockPaths := ⟨.free, .empty⟩
  height := times + 1

namespace Typed

variable {κ δ : Type} [KeyLike κ] [DigestLike δ] {context : Context}

/-- The condition `v:1`, joined with itself by `and_v`, and the result with itself, so many times. -/
def doubled (context : Context) : Nat → Typed κ δ
  | 0 => ofFragment context (.wrap .verify (ofFragment context (.leaf .one)))
  | times + 1 => ofFragment context (.pair .andV (doubled context times) (doubled context times))

/-- The type of `v:1`. -/
def verifiedOne : FragmentType := ⟨⟨.V, .zero, false, false⟩, ⟨.none, false, true⟩⟩

theorem ofFragment_ofDoubled {ν : Type} [Quantity ν] [LawfulQuantity ν]
    (idle : (Usage.nothing : Usage ν).followedBy .nothing 0 = .nothing) (times : Nat) :
    Budget.ofFragment context (.pair .andV (.ofDoubled times) (.ofDoubled times) : Fragment κ δ _) =
      (.ofDoubled (times + 1) : Budget ν) := by
  have twice (n : Nat) : (amount (2 ^ n) + (amount (2 ^ n) + amount 0) + amount 0 : ν) =
      amount (2 ^ (n + 1)) := by
    rw [← LawfulQuantity.amount_add, ← LawfulQuantity.amount_add, ← LawfulQuantity.amount_add, pow_succ]
    exact congrArg amount (by omega)
  have free : LockSet.free.join .free = .free := by decide
  have joined : Budget.andV (.ofDoubled times) (.ofDoubled times) =
      (.ofDoubled (times + 1) : Budget ν) := by
    refine Budget.ext (twice _) rfl (twice _) (congrArg some idle) rfl rfl
      (congrArg (LockPaths.mk · .empty) free) ?_
    change 1 + max (times + 1) (max (times + 1) 0) = times + 1 + 1
    omega
  exact congrArg Budget.withoutMixedPaths joined

theorem note_doubled (times : Nat) :
    (doubled context times : Typed κ δ).note = ⟨verifiedOne, .ofDoubled times⟩ := by
  induction times with
  | zero => rfl
  | succ times ih =>
    have typed : (doubled context times : Typed κ δ).type = verifiedOne := congrArg Attributes.type ih
    have spent : (doubled context times : Typed κ δ).budget = .ofDoubled times :=
      congrArg Attributes.budget ih
    rw [doubled, ofFragment, Condition.note_node]
    simp only [Fragment.map, typed, spent]
    exact congrArg _ (ofFragment_ofDoubled rfl times)

theorem type_doubled (times : Nat) : (doubled context times : Typed κ δ).type = verifiedOne :=
  congrArg Attributes.type (note_doubled times)

theorem budget_doubled (times : Nat) :
    (doubled context times : Typed κ δ).budget = .ofDoubled times :=
  congrArg Attributes.budget (note_doubled times)

theorem exactBudget_doubled (times : Nat) :
    (doubled context times : Typed κ δ).exactBudget context = .ofDoubled times := by
  induction times with
  | zero =>
    simp only [doubled, ofFragment, Condition.node, exactBudget_wrap, exactBudget_leaf]
    rfl
  | succ times ih =>
    rw [doubled, ofFragment, exactBudget_eq, Condition.fragment_node]
    simp only [Fragment.map, ih]
    exact ofFragment_ofDoubled rfl times

/-- A condition that fits behind a doubled one is validated with it, if both stay low. -/
theorem Validated.doubled_andV {times : Nat} {y : Typed κ δ} {type : FragmentType}
    (valid : Validated context (doubled context times : Typed κ δ)) (validY : Validated context y)
    (typed : FragmentType.pair .andV verifiedOne y.type = .ok type)
    (low : times + 2 < heightLimit) (lowY : y.budget.height + 1 < heightLimit) :
    Validated context (ofFragment context (.pair .andV (doubled context times) y)) := by
  have fits : FragmentType.ofFragment ((.pair .andV (doubled context times) y :
      Fragment κ δ (Typed κ δ)).map Typed.type) = .ok type := by
    rw [Fragment.map, type_doubled]
    exact typed
  refine validated_of_typed _ rfl
    (List.forall_mem_cons.mpr ⟨valid, List.forall_mem_singleton.mpr validY⟩) fits ?_
    fun _ _ same => by cases same
  change max (doubled context times).budget.height (max y.budget.height 0) + 1 < heightLimit
  rw [budget_doubled]
  change max (times + 1) _ + 1 < heightLimit
  omega

theorem validated_doubled {times : Nat} (low : times + 1 < heightLimit) :
    Validated context (doubled context times : Typed κ δ) := by
  induction times with
  | zero => exact validated_ofFragment rfl (List.forall_mem_singleton.mpr (validated_ofFragment rfl nofun))
  | succ times ih =>
    have valid := ih (Nat.lt_of_succ_lt low)
    have typed : FragmentType.pair .andV verifiedOne (doubled context times : Typed κ δ).type =
        .ok verifiedOne := by
      rw [type_doubled]
      rfl
    refine valid.doubled_andV valid typed low ?_
    rw [budget_doubled]
    exact low

/-! ## What the numbers of a budget are worth -/

/-- In every part of a condition that can be made, script size and opcodes are right up to the range of
a word. If its script has less than 2^60 bytes, nothing in it has wrapped around: all numbers of all
budgets are the exact ones. -/
theorem Reachable.budget_modulo {t : Typed κ δ} (made : Reachable context t) :
    (∀ x ∈ Traversal.preorder t,
      x.budget.scriptSize.toNat = (x.exactBudget context).scriptSize % 2 ^ 64 ∧
        x.budget.opcodes.toNat = (x.exactBudget context).opcodes % 2 ^ 64 ∧
        x.budget.height = (x.exactBudget context).height) ∧
    ((t.exactBudget context).scriptSize < 2 ^ 60 →
      ∀ x ∈ Traversal.preorder t, x.budget.map UInt64.toNat = x.exactBudget context) := by
  refine ⟨fun x below => ?_, fun narrow x below => ?_⟩
  · have same := (made.validated.of_mem_preorder below).outline_budget
    refine ⟨?_, ?_, congrArg Budget.height same⟩
    · exact (congrArg UInt64.toNat (congrArg Budget.scriptSize same)).trans UInt64.toNat_ofNat'
    · exact (congrArg UInt64.toNat (congrArg Budget.opcodes same)).trans UInt64.toNat_ofNat'
  · have small := (scriptSize_le_of_mem_preorder below).trans_lt narrow
    rw [(made.validated.of_mem_preorder below).budget_eq small]
    exact (modest_exactBudget context x).map_toNat_toWords (opcodes_le_exactBudget x) small

/-- Two to the power of 41 bytes are counted as they are. -/
theorem budget_modulo_doubled :
    let t : Typed PointKey Digest := doubled .segwit 40
    Reachable .segwit t ∧ (t.exactBudget .segwit).scriptSize = 2 ^ 41 ∧
      t.budget.map UInt64.toNat = t.exactBudget .segwit := by
  intro t
  have valid : Validated .segwit t := validated_doubled (by decide)
  have size : (t.exactBudget .segwit).scriptSize = 2 ^ 41 :=
    congrArg Budget.scriptSize (exactBudget_doubled 40)
  have narrow : (t.exactBudget .segwit).scriptSize < 2 ^ 60 := by
    rw [size]
    decide
  exact ⟨valid.reachable, size,
    valid.reachable.budget_modulo.2 narrow t (Traversal.mem_preorder_self t)⟩

/-- A signature below `v:1` doubled 64 times, `and_v(X,pk(A))`. -/
def doubledThenKey (key : PointKey) : Typed PointKey Digest :=
  ofFragment .segwit (.pair .andV (doubled .segwit 64) (pk .segwit key))

/-- The condition can be put together, as it is 66 levels high. Its script has 2^65 bytes and those of
`pk(A)`, but only the latter are counted, and so the whole is within all limits. -/
theorem exists_wrapped_budget : ∃ t : Typed PointKey Digest, Reachable .segwit t ∧
    (t.exactBudget .segwit).scriptSize = 2 ^ 65 + 35 ∧ t.budget.scriptSize.toNat = 35 ∧
    (t.exactBudget .segwit).opcodes = 2 ^ 64 + 1 ∧ t.budget.opcodes.toNat = 1 ∧
    t.withinLimits .segwit = true := by
  let key : PointKey := ⟨false, (Vector.replicate 31 0).push 1⟩
  have below : Validated .segwit (doubled .segwit 64 : Typed PointKey Digest) :=
    validated_doubled (by decide)
  have single : Validated .segwit (pk .segwit key : Typed PointKey Digest) := validated_pk rfl
  have valid : Validated .segwit (doubledThenKey key) :=
    below.doubled_andV single rfl (by decide) (by decide)
  -- Nothing may be evaluated before the doubled part, over 2^65 nodes, has given way to its budget.
  have exact : (doubledThenKey key).exactBudget .segwit =
      Budget.ofFragment .segwit (.pair .andV (.ofDoubled 64)
        ((pk .segwit key : Typed PointKey Digest).exactBudget .segwit) : Fragment PointKey Digest _) := by
    rw [doubledThenKey, ofFragment, exactBudget_eq, Condition.fragment_node]
    simp only [Fragment.map, exactBudget_doubled]
  have counted : (doubledThenKey key).budget =
      Budget.ofFragment .segwit (.pair .andV (.ofDoubled 64)
        (pk .segwit key : Typed PointKey Digest).budget : Fragment PointKey Digest _) := by
    rw [doubledThenKey, ofFragment, budget, Condition.note_node]
    simp only [Fragment.map, budget_doubled]
  refine ⟨doubledThenKey key, valid.reachable, ?_, ?_, ?_, ?_, ?_⟩
  · rw [exact]
    decide +kernel
  · rw [counted]
    decide +kernel
  · rw [exact]
    decide +kernel
  · rw [counted]
    decide +kernel
  · rw [withinLimits, metrics, counted]
    decide +kernel

end Typed

end LockScript
