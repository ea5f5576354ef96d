import LockScript.Proofs.RunBound
import LockScript.Proofs.SatisfactionSize
import LockScript.Proofs.StackRise

/-! # The peak of a run

While the script of a condition runs on a witness that a search found, the stacks rise above the witness
by no more than the budget says, except that a `multi` also pushes its two numbers.
-/

namespace LockScript

open Material (secondAndFourthWithSecret)

/-- Room for the two numbers that a `multi` pushes besides its keys, which no budget counts. -/
def Condition.LeavesRoom {κ α : Type} (slack : Nat) : Condition κ Digest α → Prop :=
  All fun
    | .leaf (.multi _) => 2 ≤ slack
    | _ => True

/-- Room for two elements is enough for every condition. -/
theorem Condition.leavesRoom_two {κ α : Type} (t : Condition κ Digest α) : t.LeavesRoom 2 := by
  intro x _
  split
  · exact Nat.le_refl 2
  · trivial

namespace Evaluator

variable (e : Evaluator) (slack : Nat)

/-- The stacks rise no further than a usage says, up to some slack. -/
def peak : RunBound :=
  fun base script taken u => 1 ≤ u.execItems ∧ e.RisesAs base script taken (u.execItems + slack)

variable {e slack}

private theorem peak_followedBy {base : Base} {script : Script} {taken : List Bytes} {u v : Usage Nat}
    {shift : Nat} (positive : 1 ≤ u.execItems)
    (rises : ∀ extra, 1 ≤ extra → u.execItems + slack ≤ extra → v.execItems + shift + slack ≤ extra →
      e.RisesAs base script taken extra) : e.peak slack base script taken (u.followedBy v shift) := by
  have left : u.execItems ≤ (u.followedBy v shift).execItems := Nat.le_max_left _ _
  have right : v.execItems + shift ≤ (u.followedBy v shift).execItems := Nat.le_max_right _ _
  exact ⟨positive.trans left, rises _ (by omega) (by omega) (by omega)⟩

variable (e slack)

/-- The stacks rise no further over a fragment than they do over its children. -/
theorem composes_peak : (e.peak slack).Composes e where
  worst := by
    rintro base script taken u other ⟨positive, rises⟩
    have within {worse : Usage Nat} (le : u.execItems ≤ worse.execItems) :
        e.peak slack base script taken worse :=
      ⟨positive.trans le, rises.mono (Nat.add_le_add_right le slack)⟩
    exact ⟨within (Nat.le_max_left _ _), within (Nat.le_max_right _ _)⟩
  select _ kept := kept
  alt kept := ⟨kept.1, Rises.alt kept.2⟩
  swap kept := ⟨kept.1, Rises.swap kept.2⟩
  check kept := ⟨kept.1, Rises.append_shrinking kept.2 rfl (by decide)⟩
  verify kept := ⟨kept.1, Rises.verified kept.2⟩
  zeroNotEqual kept := ⟨kept.1, Rises.append_shrinking kept.2 rfl (by decide)⟩
  dupIf nested kept := ⟨kept.1, rises_dupIf true nested (Nat.le_add_right_of_le kept.1) fun _ => kept.2⟩
  dupIf_skipped nested := ⟨Nat.le_refl 1, rises_dupIf false nested (Nat.le_add_right 1 slack)
    fun no => absurd no Bool.false_ne_true⟩
  nonzero nested short kept :=
    ⟨kept.1, rises_nonzero nested short (Nat.le_add_right_of_le kept.1) fun _ => kept.2⟩
  nonzero_skipped nested := ⟨Nat.le_refl 1, rises_nonzero nested (by decide) (Nat.le_add_right 1 slack)
    fun nonempty => absurd rfl nonempty⟩
  andV stackLike balanced answers run first second := by
    refine peak_followedBy first.1 fun extra _ low low' => ?_
    obtain ⟨_, second⟩ := second
    rw [risesAs_of_ne stackLike] at second ⊢
    exact Rises.andV (Rises.mono first.2 low) balanced answers run (second.mono low')
  join joins balanced answers run first second := by
    refine peak_followedBy first.1 fun extra _ low low' => ?_
    have rises := Rises.join (Rises.mono first.2 low) balanced answers run second.2
      (by rwa [Nat.add_right_comm] at low')
    obtain rfl | rfl := joins <;> exact rises.append_shrinking rfl (by decide)
  orC_skipped := by
    rintro sx sy upper u rel balanced answers nested run ⟨positive, rises⟩
    have whole : e.Rises (Script.pair .orC sx sy) (upper ++ []) (u.execItems + slack) :=
      Rises.orC rises balanced answers run nested (Nat.le_add_right_of_le positive)
        fun no => absurd no (by decide)
    rw [List.append_nil] at whole
    exact ⟨positive, whole⟩
  orC balanced answers nested run first second :=
    peak_followedBy first.1 fun _ positive low low' =>
      Rises.orC (Rises.mono first.2 low) balanced answers run nested positive
        fun _ => Rises.mono second.2 low'
  orD_skipped := by
    rintro sx sy upper other u rel balanced answers nested run refused ⟨positive, rises⟩
    have whole : e.Rises (Script.pair .orD sx sy) (upper ++ []) (u.execItems + slack) :=
      Rises.orD rises balanced answers run nested (Nat.le_add_right_of_le positive)
        (fun _ => answers.ne_nil refused run) fun no => absurd no (by decide)
    rw [List.append_nil] at whole
    exact ⟨positive, whole⟩
  orD shift balanced answers nested run first second :=
    peak_followedBy first.1 fun _ positive low low' =>
      Rises.orD (Rises.mono first.2 low) balanced answers run nested positive
        (fun yes => absurd yes (by decide)) fun _ => Rises.mono second.2 (by omega)
  orI value stackLike balanced nested nested' kept := by
    obtain ⟨positive, rises⟩ := kept
    refine ⟨positive, ?_⟩
    rw [risesAs_of_ne stackLike] at rises ⊢
    exact rises_orI value balanced nested nested' rises
  andOr stackLike balanced answers run balanced' nested nested' first second := by
    refine peak_followedBy first.1 fun extra positive low low' => ?_
    obtain ⟨_, second⟩ := second
    rw [risesAs_of_ne stackLike] at second ⊢
    exact Rises.andOr (Rises.mono first.2 low) balanced answers run balanced' nested nested' positive
      (second.mono low')
  threshold := by
    intro α rels scripts k first items own parts whole head balancedHead others balanced run kept runs gathers
    -- The sum takes one more element than the child that needs the most.
    let peak := whole.execItems - 1
    have low (part : PartRun) (member : part ∈ own :: parts) : part.usage.execItems ≤ peak :=
      Nat.le_sub_one_of_lt (gathers.execItems _ (List.mem_map_of_mem member))
    have positive : 1 ≤ peak := kept.1.trans (low own List.mem_cons_self)
    have rising : List.Forall₂ (fun x (part : Bool × List Bytes) => rels x part.1 part.2 ∧
        e.RisesBelow (scripts x) part.2 (peak + slack)) items
          (parts.map fun part => (part.answer, part.taken)) := by
      rw [List.forall₂_map_right_iff]
      refine forall₂_imp_of_mem (fun x _ part member run => ⟨run.1, ?_⟩) runs
      exact RisesBelow.mono run.2.2
        (Nat.add_le_add_right (low part (List.mem_cons_of_mem own member)) slack)
    have rises : e.Rises (Script.threshold k ((first :: items).map scripts))
        (((own :: parts).map fun part => (part.answer, part.taken)).flatMap Prod.snd) (peak + slack + 1) :=
      rises_threshold rels scripts head balancedHead others balanced (Nat.le_add_right_of_le positive) run
        (Rises.mono kept.2 (Nat.add_le_add_right (low own List.mem_cons_self) slack)) rising
    rw [List.flatMap_map] at rises
    have same : peak + 1 = whole.execItems := by omega
    rw [Nat.add_right_comm, same] at rises
    exact ⟨same ▸ Nat.le_add_left 1 peak, rises⟩

end Evaluator

namespace Typed

variable {κ : Type} [PublicKey κ]

namespace Validated

variable {context : Context} {e : Evaluator} {slack : Nat} {policy : Policy}

/-- No leaf lets the stacks rise further than its budget says, except that a `multi` pushes two numbers
besides its keys. -/
private theorem rise_ofLeaf_le {l : Leaf κ Digest} (room : ∀ ks, l = .multi ks → 2 ≤ slack)
    (answer : Bool) (u : Usage Nat) (found : (Budget.ofLeaf context l).pick answer = some u) :
    1 ≤ u.execItems ∧ (Script.ofLeaf context l).rise ≤ u.execItems + slack := by
  have within (exec : Nat) (same : u.execItems = exec) (positive : 1 ≤ exec)
      (rise : (Script.ofLeaf context l).rise ≤ exec + slack) :
      1 ≤ u.execItems ∧ (Script.ofLeaf context l).rise ≤ u.execItems + slack := by
    rw [same]
    exact ⟨positive, rise⟩
  have one : (1 : Nat) ≤ 1 + slack := Nat.le_add_right 1 slack
  have two : (2 : Nat) ≤ 2 + slack := Nat.le_add_right 2 slack
  cases l with
  | one | zero => exact within 1 (by cases answer <;> cases found; rfl) (by decide) one
  | key k => exact within 1 (by cases answer <;> cases found <;> rfl) (by decide) one
  | keyHash k => exact within 2 (by cases answer <;> cases found <;> rfl) (by decide) two
  | after lock | older lock =>
    refine within 1 (by cases answer <;> cases found; rfl) (by decide) ?_
    rw [Script.ofLeaf, Script.rise, Instruction.pushes_ofNumber, Instruction.pops_ofNumber]
    exact one
  | digest d =>
    refine within 2 (by cases answer <;> cases found <;> rfl) (by decide) ?_
    cases kind : d.kind <;> rw [Script.ofLeaf, kind] <;> exact two
  | multi ks =>
    refine within ks.items.length (by cases answer <;> cases found <;> rfl)
      (Nat.lt_of_lt_of_le ks.k_pos ks.k_le) ?_
    have numbers := room ks rfl
    rw [Script.ofLeaf, List.cons_append, Script.rise, Script.rise_pushKeys, Script.rise,
      Instruction.pushes_ofNumber, Instruction.pops_ofNumber, Instruction.pushes_ofNumber,
      Instruction.pops_ofNumber]
    change 1 + (ks.items.length + (1 + (1 + 0 - 3) - 0)) - 0 ≤ _
    omega
  | multiA ks =>
    refine within 2 (by cases answer <;> cases found <;> rfl) (by decide) ?_
    refine (Script.rise_checkSigChain context ks.items ?_).trans two
    rw [Script.rise, Instruction.pushes_ofNumber, Instruction.pops_ofNumber]
    decide

theorem leavesWithin_peak {t : Typed κ Digest} (room : t.LeavesRoom slack) :
    t.LeavesWithin (e.peak slack) context := by
  intro x below
  have room := room x below
  split
  next l isLeaf =>
    intro base answer taken u stackLike found
    have enough (ks : Threshold κ multiCap) (isMulti : l = .multi ks) : 2 ≤ slack := by
      rwa [isLeaf, isMulti] at room
    obtain ⟨positive, rise⟩ := rise_ofLeaf_le enough answer u found
    exact ⟨positive, (Evaluator.risesAs_of_ne stackLike).mpr
      (Evaluator.rises_of_rise (Script.isPlain_ofLeaf context l) rise)⟩
  next => trivial

section Runs

variable [LawfulPublicKey κ] {t : Typed κ Digest} {material : Material κ} {witness : List Bytes}
  (same : e.scheme = context.scheme) (valid : Validated context t) (top : t.type.isTopLevel = true)
  (counts : t.CountsBelow (2 ^ 39)) (fits : (t.script context).bytes.length < 2 ^ 60)
  (avoids : t.AvoidsZeros) (genuine : material.Genuine e (t.leafHash context))
  (consistent : material.Consistent) (byType : (t.search context policy material).DissatisfiesByType t)
  (found : t.satisfy context policy material = .ok witness)

include same valid top counts fits avoids genuine consistent byType found

/-- The metrics of a condition bound the stacks in the run of its script on a witness that was found, up to
the slack that its leaves need. -/
theorem exists_execStack (room : t.LeavesRoom slack) :
    ∃ depth, t.metrics.execStack = some depth ∧
      e.StaysWithin (depth.toNat + slack) (t.script context) ⟨⟨witness.reverse, []⟩, []⟩ := by
  obtain ⟨allowed, unmixed, older, after⟩ := consistent.exists_allowed
  have reckonable : (t.search context policy material).Reckonable context .items allowed :=
    ⟨rfl, fun _ _ _ => Nat.le_refl 1, older, after, unmixed⟩
  have stack := satisfy_eq_ok.mp found
  obtain ⟨usage, exact, items⟩ :=
    ((valid.reckons reckonable byType.choosesWithin).sat witness stack (.inl rfl)).within
  obtain ⟨known, narrow⟩ := valid.budget_sat_eq counts fits exact
  rw [Measure.weigh_items] at items
  change witness.reverse.length ≤ usage.witnessItems at items
  have base : t.type.soundness.base = .B := beq_iff_eq.mp top
  have followed : Followed (e.peak slack) context (t.search context policy material) _ t :=
    ⟨valid, counts, fun _ may => may, valid.descendsThrough_of_byType avoids byType, byType.choosesWithin,
      leavesWithin_peak room⟩
  obtain ⟨_, rises⟩ :=
    (followed.keeps (e.composes_peak slack) genuine same reckonable).sat witness stack (.inl rfl) usage exact
  rw [base] at rises
  have depth : t.metrics.execStack = some (Quantity.amount (usage.execItems + usage.witnessItems)) := by
    rw [metrics, known, LawfulQuantity.amount_add]
    rfl
  refine ⟨_, depth, ?_⟩
  have exec := narrow.execItems
  have few := narrow.witnessItems
  rw [Quantity.toNat_amount (show _ < 2 ^ 64 by omega)]
  have within := rises [] [] [] rfl
  rw [List.append_nil] at within
  refine within.mono ?_
  rw [List.length_nil]
  omega

/-- While the script runs on a witness that was found, no more elements are on both stacks than the
metrics say, and where there is a `multi` two more, if the search dissatisfies by type. The metrics are exact as
long as the script has fewer than `2 ^ 60` bytes and its counts are script numbers that it can read back, below
`2 ^ 39`. -/
theorem staysWithin_execStack (room : t.LeavesRoom slack) :
    ∃ depth script, t.metrics.execStack = some depth ∧
      Script.parse? (t.script context).bytes = some script ∧
      e.StaysWithin (depth.toNat + slack) script ⟨⟨witness.reverse, []⟩, []⟩ := by
  obtain ⟨depth, known, within⟩ :=
    exists_execStack same valid top counts fits avoids genuine consistent byType found room
  exact ⟨depth, t.script context, known,
    Script.parse?_bytes (t.isShort_script context (counts.mono (by decide))), within⟩

/-- Whatever its leaves are, the stacks hold at most two elements more than the metrics of a condition say. -/
theorem staysWithin_execStack_add_two :
    ∃ depth, t.metrics.execStack = some depth ∧
      e.StaysWithin (depth.toNat + 2) (t.script context) ⟨⟨witness.reverse, []⟩, []⟩ :=
  exists_execStack same valid top counts fits avoids genuine consistent byType found t.leavesRoom_two

end Runs

/-- Two of three have a `multi`, so that there have to be two elements of slack. -/
theorem staysWithin_execStack_twoOfThree : Validated .segwit twoOfThree ∧
    twoOfThree.CountsBelow (2 ^ 39) ∧ twoOfThree.AvoidsZeros ∧
      secondAndFourthWithSecret.Genuine .verifiesSecondAndFourth (twoOfThree.leafHash .segwit) ∧
      secondAndFourthWithSecret.Consistent ∧ twoOfThree.LeavesRoom 2 ∧
      (twoOfThree.search .segwit .nonMalleable secondAndFourthWithSecret).DissatisfiesByType twoOfThree ∧
      twoOfThree.satisfy .segwit .nonMalleable secondAndFourthWithSecret = .ok twoOfThreeWitness ∧
      twoOfThree.metrics.execStack = some 9 ∧
      ∃ depth script, twoOfThree.metrics.execStack = some depth ∧
        Script.parse? (twoOfThree.script .segwit).bytes = some script ∧
        Evaluator.verifiesSecondAndFourth.StaysWithin (depth.toNat + 2) script
          ⟨⟨twoOfThreeWitness.reverse, []⟩, []⟩ := by
  have genuine := Material.genuine_secondAndFourthWithSecret (twoOfThree.leafHash .segwit)
  have consistent : secondAndFourthWithSecret.Consistent := ⟨nofun, nofun⟩
  have byType := dissatisfiesByType_twoOfThree
    (twoOfThree.search .segwit .nonMalleable secondAndFourthWithSecret)
  exact ⟨validated_twoOfThree, countsBelow_twoOfThree, avoidsZeros_twoOfThree, genuine, consistent,
    twoOfThree.leavesRoom_two, byType, satisfy_twoOfThree,
    by rw [metrics, sat_twoOfThree]; rfl,
    staysWithin_execStack rfl validated_twoOfThree rfl countsBelow_twoOfThree (by decide +kernel)
      avoidsZeros_twoOfThree genuine consistent byType satisfy_twoOfThree twoOfThree.leavesRoom_two⟩

end Validated

/-- One of one key. -/
def oneOfOne : Threshold PointKey multiCap where
  k := 1
  items := [pointOfByte 1]
  k_pos := Nat.one_pos
  k_le := by decide
  capped := by decide +kernel

/-- The two numbers of a `multi` are on the stack together with its witness and its key, which makes
five elements, and the metrics only count three. -/
theorem exists_higher_peak : ∃ (t : Typed PointKey Digest) (e : Evaluator) (material : Material PointKey)
    (witness : List Bytes), Validated .segwit t ∧ t.type.isTopLevel = true ∧ e.scheme = .ecdsa ∧
      material.Genuine e (t.leafHash .segwit) ∧ material.Consistent ∧
      t.satisfy .segwit .nonMalleable material = .ok witness ∧ t.metrics.execStack = some 3 ∧
      ¬e.StaysWithin 3 (t.script .segwit) ⟨⟨witness.reverse, []⟩, []⟩ := by
  let t : Typed PointKey Digest := ofFragment .segwit (.leaf (.multi oneOfOne))
  let e : Evaluator := ⟨.ecdsa, fun _ signature => signature == [7], fun _ => false, fun _ => false, true⟩
  let material : Material PointKey := { Material.none with ecdsa := fun _ => some [7] }
  have genuine : material.Genuine e (t.leafHash .segwit) := by
    refine ⟨?_, ?_, ?_, fun _ => rfl, fun _ => rfl⟩
    · rintro _ _ ⟨⟩
      rfl
    · rintro _ _ ⟨⟩
      decide
    · rintro _ _ ⟨⟩
  have found : t.satisfy .segwit .nonMalleable material = .ok [[], [7]] := by decide +kernel
  refine ⟨t, e, material, _, validated_ofFragment (by decide +kernel) nofun, by decide +kernel, rfl, genuine,
    ⟨nofun, nofun⟩, found, by decide +kernel, fun within => ?_⟩
  -- Just before the check, both numbers and the key are on top of the witness.
  let front : Script := [.ofNumber 1, Script.pushKey .segwit (pointOfByte 1), .ofNumber 1]
  have script : t.script .segwit = front ++ [.op .checkMultiSig] := Condition.script_leaf ..
  have high := within front [.op .checkMultiSig] script _ rfl
  exact absurd high (by decide)

end Typed

end LockScript
