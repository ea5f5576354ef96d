import LockScript.Proofs.KeyChecks
import LockScript.Proofs.SatisfactionSize

/-! # Operations of a run

The limit on operations counts all opcodes of a script other than pushes, whether they run or not, and
the keys of the multisignature checks that run. The metrics promise a bound on both together, which
holds for the witnesses that are found if the search dissatisfies by type.
-/

namespace LockScript

/-- The operations of a script that runs on a witness: its opcodes other than pushes, and the keys of the
multisignature checks that run. -/
def Evaluator.operations (e : Evaluator) (script : Script) (witness : List Bytes) : Nat :=
  script.opcodes + e.keysChecked script ⟨⟨witness.reverse, []⟩, []⟩

namespace Typed

variable {κ : Type} [PublicKey κ] {context : Context} {e : Evaluator} {policy : Policy}

theorem leavesWithin_keyUse (t : Typed κ Digest) : t.LeavesWithin e.keyUse context := by
  intro x _
  split
  next l _ =>
    intro base answer taken u stackLike found
    refine (Evaluator.checksAs_of_ne stackLike).mpr fun rest alt branches active => ?_
    by_cases isMulti : ∃ ks, l = .multi ks
    · obtain ⟨ks, rfl⟩ := isMulti
      rw [Evaluator.keysChecked_multi ks _ active]
      cases answer <;> cases found <;> exact Nat.le_refl _
    · rw [Evaluator.keysChecked_eq_zero (Evaluator.checksMany_ofLeaf fun ks same => isMulti ⟨ks, same⟩)]
      exact Nat.zero_le _
  next => trivial

/-- One of one key, the last. -/
def oneOfLast : Threshold PointKey multiCap where
  k := 1
  items := [pointOfByte 16]
  k_pos := Nat.one_pos
  k_le := by decide
  capped := by decide +kernel

namespace Validated

/-- A script takes no more operations on a witness that was found than the metrics say, if the condition is
sane. In a scriptSig this always holds, and in a witness if the search dissatisfies by type. The metrics are
exact as long as the script has fewer than `2 ^ 60` bytes and its counts are script numbers that it can read
back, below `2 ^ 39`. -/
theorem operations_le [LawfulPublicKey κ] {t : Typed κ Digest} {material : Material κ}
    {witness : List Bytes} (same : e.scheme = context.scheme) (valid : Validated context t)
    (top : t.type.isTopLevel = true) (counts : t.CountsBelow (2 ^ 39))
    (fits : (t.script context).bytes.length < 2 ^ 60) (genuine : material.Genuine e (t.leafHash context))
    (consistent : material.Consistent) (sane : t.checkSanity context .none = .ok ())
    (byType : context.limits.scriptSigSize = none → (t.search context policy material).DissatisfiesByType t)
    (found : t.satisfy context policy material = .ok witness) :
    ∃ script, Script.parse? (t.script context).bytes = some script ∧
      e.operations script witness ≤ t.metrics.opcodes.toNat := by
  have relays := (checkSanity_eq_ok.mp sane).2.1
  have nonMalleable := (Bool.and_eq_true_iff.mp relays).1
  have byType : (t.search context policy material).DissatisfiesByType t := by
    cases carried : context.limits.scriptSigSize with
    | none => exact byType carried
    | some size => exact dissatisfiesByType_of_isNonMalleable relays (Option.isSome_of_eq_some carried)
  obtain ⟨allowed, unmixed, older, after⟩ := consistent.exists_allowed
  have reckonable : (t.search context policy material).Reckonable context .items allowed :=
    ⟨rfl, fun _ _ _ => Nat.le_refl 1, older, after, unmixed⟩
  have stack := satisfy_eq_ok.mp found
  obtain ⟨usage, exact, _⟩ :=
    ((valid.reckons reckonable byType.choosesWithin).sat witness stack (.inl rfl)).within
  obtain ⟨known, narrow⟩ := valid.budget_sat_eq counts fits exact
  have base : t.type.soundness.base = .B := beq_iff_eq.mp top
  have followed : Followed e.keyUse context (t.search context policy material) _ t :=
    ⟨valid, counts, fun valid => valid.coherent.1, valid.descendsThrough_of_nonMalleable nonMalleable byType,
      byType.choosesWithin, leavesWithin_keyUse t⟩
  have checks := (followed.keeps e.composes_keyUse genuine same reckonable).sat witness stack (.inl rfl)
    usage exact
  rw [base] at checks
  have within := checks [] [] [] rfl
  rw [List.append_nil] at within
  refine ⟨_, Script.parse?_bytes (t.isShort_script context (counts.mono (by decide))), ?_⟩
  have total : t.metrics.opcodes = Quantity.amount ((t.script context).opcodes + usage.execOpcodes) := by
    rw [metrics, known, LawfulQuantity.amount_add, ← (valid.describes counts).opcodes_eq]
    rfl
  have few := Nat.lt_of_le_of_lt (Script.opcodes_le_length_bytes (t.script context)) fits
  have exec := narrow.execOpcodes
  rw [total, Quantity.toNat_amount (show _ < 2 ^ 64 by omega)]
  exact Nat.add_le_add_left within _

/-- A `multi` counts its key, and the check. -/
theorem operations_le_multi : ∃ (t : Typed PointKey Digest) (e : Evaluator) (material : Material PointKey),
    Validated .segwit t ∧ t.type.isTopLevel = true ∧ material.Genuine e (t.leafHash .segwit) ∧
      material.Consistent ∧ t.checkSanity .segwit .none = .ok () ∧
      (t.search .segwit .nonMalleable material).DissatisfiesByType t ∧
      t.satisfy .segwit .nonMalleable material = .ok [[], List.replicate 71 0x22] ∧ t.metrics.opcodes = 2 ∧
      ∃ script, Script.parse? (t.script .segwit).bytes = some script ∧
        e.operations script [[], List.replicate 71 0x22] ≤ t.metrics.opcodes.toNat := by
  let t : Typed PointKey Digest := ofFragment .segwit (.leaf (.multi oneOfLast))
  have valid : Validated .segwit t := validated_ofFragment rfl (by simp [Fragment.children])
  have genuine := genuine_firstAndLast (t.leafHash .segwit)
  have consistent : firstAndLast.Consistent := ⟨nofun, nofun⟩
  have keys : t.keys = [pointOfByte 16] := Condition.keys_leaf ..
  have sane : t.checkSanity .segwit .none = .ok () :=
    checkSanity_eq_ok.mpr
      ⟨rfl, by decide +kernel, rfl, hasRepetition_eq_false (keys ▸ List.pairwise_singleton _ _), rfl⟩
  have byType : (t.search .segwit .nonMalleable firstAndLast).DissatisfiesByType t :=
    (Condition.all_leaf ..).mpr trivial
  have found : t.satisfy .segwit .nonMalleable firstAndLast = .ok [[], List.replicate 71 0x22] := by
    decide +kernel
  exact ⟨t, verifiesFirstAndLast, firstAndLast, valid, rfl, genuine, consistent, sane, byType, found, rfl,
    valid.operations_le rfl rfl ((Condition.all_leaf ..).mpr trivial) (by decide +kernel) genuine consistent sane
      (fun _ => byType) found⟩

end Validated

/-- Six keys together or three that are revealed, or else a `multi` of one key. -/
def groupsOrMulti : Typed PointKey Digest :=
  ofFragment .segwit (.pair .orD manyOrRevealed (ofFragment .segwit (.leaf (.multi oneOfLast))))

theorem keys_groupsOrMulti : groupsOrMulti.keys = groupsOrSingle.keys := by
  decide +kernel

/-- The search dissatisfies six keys together with a signature by `A`, so a check of five keys runs, and
then that of the `multi`. The metrics only count the larger of the two. -/
theorem exists_more_operations : ∃ (t : Typed PointKey Digest) (e : Evaluator)
    (material : Material PointKey) (witness : List Bytes), Validated .segwit t ∧
      t.type.isTopLevel = true ∧ t.checkSanity .segwit .none = .ok () ∧ e.scheme = .ecdsa ∧
      material.Genuine e (t.leafHash .segwit) ∧ material.Consistent ∧
      t.satisfy .segwit .nonMalleable material = .ok witness ∧ t.metrics.opcodes = 32 ∧
      e.operations (t.script .segwit) witness = 33 := by
  have valid : Validated .segwit groupsOrMulti := by
    refine validated_ofFragment rfl (List.forall_mem_cons.mpr
      ⟨validated_groupsOrSingle.pair.1, List.forall_mem_singleton.mpr ?_⟩)
    exact validated_ofFragment rfl (by simp [Fragment.children])
  have sane : groupsOrMulti.checkSanity .segwit .none = .ok () :=
    checkSanity_eq_ok.mpr
      ⟨rfl, by decide +kernel, rfl, hasRepetition_eq_false (keys_groupsOrMulti ▸ ascending_groupsOrSingle), rfl⟩
  have found : groupsOrMulti.satisfy .segwit .nonMalleable firstAndLast =
      .ok ([] :: List.replicate 71 0x22 :: List.replicate 6 [] ++ [List.replicate 71 0x11, [1]]) := by
    decide +kernel
  exact ⟨groupsOrMulti, verifiesFirstAndLast, firstAndLast, _, valid, rfl, sane, rfl, genuine_firstAndLast _,
    ⟨nofun, nofun⟩, found, rfl, by decide +kernel⟩

end Typed

end LockScript
