import LockScript.Proofs.CountedUsage
import LockScript.Proofs.Sanity
import LockScript.Proofs.WitnessBound

/-! # Sizes of satisfactions

What a search finds for a validated condition is within the budget of the condition, as long as the
signatures have the usual lengths and the transaction does not meet a height together with a time. The
bytes of a witness always are; those of a scriptSig are if the condition is sane; and the number of
elements is if the search dissatisfies by type. This is shown of the exact budget first. The bounds in words
are the exact ones as long as words can count them, as they can for any script below 2^60 bytes.
-/

namespace LockScript

open Material (secondAndFourthWithSecret)

/-- Material with signatures of the usual lengths, the byte for the signature type included. -/
structure Material.Regular {κ : Type} (material : Material κ) : Prop where
  ecdsa : ∀ key signature, material.ecdsa key = some signature → signature.length ≤ 72
  schnorr : ∀ key leaf signature, material.schnorr key leaf = some signature → signature.length ≤ 65

theorem Material.Regular.length_signature_lt {κ : Type} {material : Material κ} (regular : material.Regular)
    {scheme : SignatureScheme} {leaf : LeafHash} {key : κ} {signature : Bytes}
    (found : material.signature? scheme leaf key = some signature) :
    signature.length < Budget.signatureSize scheme := by
  cases scheme with
  | ecdsa => exact Nat.lt_succ_of_le (regular.ecdsa key signature found)
  | schnorr => exact Nat.lt_succ_of_le (regular.schnorr key leaf signature found)

/-- The bytes that carry a witness in a transaction: those of its elements with their lengths, or where
there is no witness those of a scriptSig that pushes them. -/
def Context.carriedSize (context : Context) (witness : List Bytes) : Nat :=
  if context.limits.scriptSigSize.isSome then (Script.ofWitness witness).bytes.length
  else witnessSize witness

theorem Measure.weigh_pushes (witness : List Bytes) :
    Measure.pushes.weigh witness = (Script.ofWitness witness).bytes.length := by
  induction witness with
  | nil => rfl
  | cons element rest ih =>
    rw [Measure.weigh_cons, ih]
    exact (List.length_append ..).symm

theorem Measure.weigh_items (witness : List Bytes) : Measure.items.weigh witness = witness.length := by
  induction witness with
  | nil => rfl
  | cons element rest ih =>
    rw [Measure.weigh_cons, ih, Nat.add_comm]
    rfl

namespace Typed

variable {κ : Type} [PublicKey κ] [LawfulPublicKey κ] {context : Context} {policy : Policy}
  {material : Material κ} {t : Typed κ Digest} {witness : List Bytes}

namespace Validated

/-- The bounds on satisfactions in words, two of which can be added up: none is above six times the size of
the script, which is below `2 ^ 60`. -/
theorem budget_sat_eq (valid : Validated context t) (counts : t.CountsBelow (2 ^ 39))
    (fits : (t.script context).bytes.length < 2 ^ 60) {usage : Usage Nat}
    (exact : (t.exactBudget context).sat = some usage) :
    t.budget.sat = some usage.toWords ∧ usage.AtMost (2 ^ 63 - 1) := by
  have size : (t.exactBudget context).scriptSize = (t.script context).bytes.length :=
    (valid.describes_of_rule (fun t _ => t.exactBudget_eq context) counts).scriptSize_eq
  refine ⟨?_, ((modest_exactBudget context t).sat usage exact).mono (by omega)⟩
  rw [valid.exact counts fits]
  exact congrArg (Option.map Usage.toWords) exact

/-- The exact budget of a condition bounds a measure of what its search finds, if the budget reckons with
the signatures and the search chooses among dissatisfactions by this measure or within the types. -/
theorem weigh_le (valid : Validated context t) (consistent : material.Consistent)
    (found : t.satisfy context policy material = .ok witness) {m : Measure}
    (signatures : ∀ key signature,
      material.signature? context.scheme (t.leafHash context) key = some signature →
        m.weight signature ≤ m.cost (Budget.signatureSize context.scheme) 1)
    (chooses : m.ChoosesWithin (t.search context policy material) t) :
    ∃ exact, (t.exactBudget context).sat = some exact ∧ m.weigh witness ≤ m.bound exact := by
  obtain ⟨allowed, unmixed, older, after⟩ := consistent.exists_allowed
  have gives := valid.reckons ⟨rfl, signatures, older, after, unmixed⟩ chooses
  have reckoned := gives.sat witness (satisfy_eq_ok.mp found) (.inl rfl)
  rw [m.weigh_reverse] at reckoned
  exact reckoned.within

/-- A witness takes no more bytes than the budget says, and neither does the scriptSig of a sane condition.
The bounds in words are the exact ones if they do not wrap around. They could only do so in a condition that
no memory holds; `budget_sat_eq` has a condition on the script that excludes it. -/
theorem witnessSize_le (valid : Validated context t) (regular : material.Regular)
    (consistent : material.Consistent) (found : t.satisfy context policy material = .ok witness) :
    ∃ usage exact, t.budget.sat = some usage ∧ (t.exactBudget context).sat = some exact ∧
      witnessSize witness ≤ exact.witnessSize ∧
      (context = .legacy ∨ context = .bare → t.checkSanity context .none = .ok () →
        (Script.ofWitness witness).bytes.length ≤ exact.scriptSigSize) ∧
      (exact.witnessSize < 2 ^ 64 → usage.witnessSize.toNat = exact.witnessSize ∧
        witnessSize witness ≤ usage.witnessSize.toNat) ∧
      (exact.scriptSigSize < 2 ^ 64 → usage.scriptSigSize.toNat = exact.scriptSigSize ∧
        (context = .legacy ∨ context = .bare → t.checkSanity context .none = .ok () →
          (Script.ofWitness witness).bytes.length ≤ usage.scriptSigSize.toNat)) ∧
      ((context = .legacy ∨ context = .bare → t.checkSanity context .none = .ok ()) →
        ∃ size, t.maxSatisfactionSize context = some size ∧
          (exact.witnessSize < 2 ^ 64 → exact.scriptSigSize < 2 ^ 64 →
            context.carriedSize witness ≤ size.toNat)) := by
  have signatures (m : Measure) (key : κ) (signature : Bytes)
      (found : material.signature? context.scheme (t.leafHash context) key = some signature) :
      m.weight signature ≤ m.cost (Budget.signatureSize context.scheme) 1 := by
    have lt := regular.length_signature_lt found
    exact m.weight_le lt (Nat.lt_of_lt_of_le lt (by cases context <;> decide))
  obtain ⟨exact, known, size⟩ :=
    valid.weigh_le consistent found (signatures .bytes) valid.choosesWithin_bytes
  have pushes (carried : context = .legacy ∨ context = .bare)
      (sane : t.checkSanity context .none = .ok ()) :
      (Script.ofWitness witness).bytes.length ≤ exact.scriptSigSize := by
    have isCarried : context.limits.scriptSigSize.isSome = true := by
      rcases carried with rfl | rfl <;> rfl
    have byType : (t.search context policy material).DissatisfiesByType t :=
      dissatisfiesByType_of_isNonMalleable (checkSanity_eq_ok.mp sane).2.1 isCarried
    obtain ⟨exact', known', bytes⟩ :=
      valid.weigh_le consistent found (signatures .pushes) byType.choosesWithin
    rw [Measure.weigh_pushes] at bytes
    rwa [Option.some.inj (known.symm.trans known')]
  obtain ⟨usage, bounded, counts⟩ := valid.exists_sat_counts known
  have counted (narrow : exact.witnessSize < 2 ^ 64) : usage.witnessSize.toNat = exact.witnessSize ∧
      witnessSize witness ≤ usage.witnessSize.toNat :=
    ⟨counts .witnessSize narrow, size.trans_eq (counts .witnessSize narrow).symm⟩
  have countedPushes (narrow : exact.scriptSigSize < 2 ^ 64) :
      usage.scriptSigSize.toNat = exact.scriptSigSize ∧
        (context = .legacy ∨ context = .bare → t.checkSanity context .none = .ok () →
          (Script.ofWitness witness).bytes.length ≤ usage.scriptSigSize.toNat) :=
    ⟨counts .scriptSigSize narrow, fun carried sane =>
      (pushes carried sane).trans_eq (counts .scriptSigSize narrow).symm⟩
  refine ⟨usage, exact, bounded, known, size, pushes, counted, countedPushes, fun sane =>
    ⟨_, by rw [maxSatisfactionSize, bounded]; rfl, fun narrow narrow' => ?_⟩⟩
  cases context with
  | legacy => exact (countedPushes narrow').2 (.inl rfl) (sane (.inl rfl))
  | bare => exact (countedPushes narrow').2 (.inr rfl) (sane (.inr rfl))
  | segwit | tapscript => exact (counted narrow).2

/-- In a scriptSig, the signature for a `pk` takes its bytes and one more, of at most 73. -/
theorem witnessSize_le_pk : ∃ (t : Typed PointKey Digest) (material : Material PointKey),
    Validated .legacy t ∧ material.Regular ∧ material.Consistent ∧
      t.satisfy .legacy .nonMalleable material = .ok [[7]] ∧ t.checkSanity .legacy .none = .ok () ∧
      (Script.ofWitness [[7]]).bytes.length = 2 ∧ t.maxSatisfactionSize .legacy = some 73 ∧
      ∃ usage, t.budget.sat = some usage ∧
        (Script.ofWitness [[7]]).bytes.length ≤ usage.scriptSigSize.toNat := by
  let key : PointKey := ⟨false, Vector.replicate 32 1⟩
  let t : Typed PointKey Digest := pk .legacy key
  let material : Material PointKey := { Material.none with ecdsa := fun _ => some [7] }
  have valid : Validated .legacy t := validated_pk rfl
  have regular : material.Regular := by
    constructor
    · rintro _ _ ⟨⟩
      decide
    · rintro _ _ _ ⟨⟩
  have consistent : material.Consistent := ⟨nofun, nofun⟩
  have found : t.satisfy .legacy .nonMalleable material = .ok [[7]] := by decide +kernel
  have sane : t.checkSanity .legacy .none = .ok () := by
    refine checkSanity_eq_ok.mpr ⟨rfl, by decide +kernel, by decide +kernel, ?_, by decide +kernel⟩
    exact hasRepetition_eq_false (by simp [t, pk, Leaf.keys])
  have size : (t.exactBudget .legacy).sat = some (.pushes 73 1 73 1) := by decide +kernel
  obtain ⟨usage, exact, known, exactly, _, _, _, counted, _⟩ :=
    valid.witnessSize_le regular consistent found
  obtain rfl := Option.some.inj (exactly.symm.trans size)
  exact ⟨t, material, valid, regular, consistent, found, sane, by decide +kernel, by decide +kernel,
    usage, known, (counted (by decide)).2 (.inl rfl) sane⟩

/-- A witness and the script that follows it are no more elements than the budget says, if the search
dissatisfies by type. The budget is exact as long as the script has fewer than `2 ^ 60` bytes and its counts are
script numbers that `numberLength` can measure, below `2 ^ 39`. -/
theorem length_lt_maxWitnessItems (valid : Validated context t) (counts : t.CountsBelow (2 ^ 39))
    (fits : (t.script context).bytes.length < 2 ^ 60) (consistent : material.Consistent)
    (byType : (t.search context policy material).DissatisfiesByType t)
    (found : t.satisfy context policy material = .ok witness) :
    ∃ count, t.maxWitnessItems = some count ∧ witness.length + 1 ≤ count.toNat := by
  obtain ⟨usage, exact, items⟩ := valid.weigh_le (m := .items) consistent found
    (fun _ _ _ => Nat.le_refl 1) byType.choosesWithin
  obtain ⟨known, narrow⟩ := valid.budget_sat_eq counts fits exact
  rw [Measure.weigh_items] at items
  have added : usage.toWords.witnessItems + 1 = Quantity.amount (usage.witnessItems + 1) :=
    (LawfulQuantity.amount_add usage.witnessItems 1).symm
  refine ⟨usage.toWords.witnessItems + 1, by rw [maxWitnessItems, known]; rfl, ?_⟩
  rw [added, Quantity.toNat_amount]
  · exact Nat.succ_le_succ items
  · exact (Nat.succ_le_succ narrow.witnessItems).trans_lt (by decide)

theorem sat_twoOfThree : twoOfThree.budget.sat = some ⟨183, 6, 182, 3, 2⟩ := by
  rw [twoOfThree, ofFragment, Condition.node]
  simp only [budget, Condition.note, Fragment.map, Budget.ofFragment, Budget.withoutMixedPaths,
    Budget.threshold_eq, Budget.joined, Usage.threshold?, Usage.thresholdMeasure?, Quantity.totalOfLargest_eq]
  decide +kernel

/-- Two of three take six elements, and the script is the seventh. The key with its secret could have been
dissatisfied through two branches. -/
theorem length_lt_maxWitnessItems_twoOfThree : Validated .segwit twoOfThree ∧
    twoOfThree.CountsBelow (2 ^ 39) ∧ secondAndFourthWithSecret.Consistent ∧
      (twoOfThree.search .segwit .nonMalleable secondAndFourthWithSecret).DissatisfiesByType twoOfThree ∧
      twoOfThree.satisfy .segwit .nonMalleable secondAndFourthWithSecret = .ok twoOfThreeWitness ∧
      twoOfThree.maxWitnessItems = some 7 ∧
      ∃ count, twoOfThree.maxWitnessItems = some count ∧ twoOfThreeWitness.length + 1 ≤ count.toNat := by
  have consistent : secondAndFourthWithSecret.Consistent := ⟨nofun, nofun⟩
  have byType := dissatisfiesByType_twoOfThree
    (twoOfThree.search .segwit .nonMalleable secondAndFourthWithSecret)
  exact ⟨validated_twoOfThree, countsBelow_twoOfThree, consistent, byType, satisfy_twoOfThree,
    by rw [maxWitnessItems, sat_twoOfThree]; rfl,
    validated_twoOfThree.length_lt_maxWitnessItems countsBelow_twoOfThree (by decide +kernel) consistent
      byType satisfy_twoOfThree⟩

end Validated

/-- All of five keys. -/
def allOfFive : Threshold PointKey multiCap where
  k := 5
  items := List.map pointOfByte [2, 3, 4, 6, 8]
  k_pos := by decide
  k_le := by decide
  capped := by decide +kernel

/-- The condition `pkh(key)`. -/
def pkh (x : UInt8) : Typed PointKey Digest :=
  ofFragment .segwit (.wrap .check (ofFragment .segwit (.leaf (.keyHash (pointOfByte x)))))

/-- Two conditions that both hold. -/
def both (x y : Typed PointKey Digest) : Typed PointKey Digest :=
  ofFragment .segwit (.pair .andB x (ofFragment .segwit (.wrap .alt y)))

/-- Six keys together, or three that are revealed: `or_i(and_v(v:pk(A),multi(5,…)),and_b(…))`. The three
keys take more bytes than a signature by `A` and five empty elements, but they are fewer elements. -/
def manyOrRevealed : Typed PointKey Digest :=
  ofFragment .segwit (.pair .orI
    (ofFragment .segwit (.pair .andV
      (ofFragment .segwit (.wrap .verify (pk .segwit (pointOfByte 1))))
      (ofFragment .segwit (.leaf (.multi allOfFive)))))
    (both (pkh 12) (both (pkh 13) (pkh 14))))

def groupsOrSingle : Typed PointKey Digest :=
  ofFragment .segwit (.pair .orD manyOrRevealed (pk .segwit (pointOfByte 16)))

theorem validated_pkh (x : UInt8) : Validated .segwit (pkh x) :=
  validated_ofFragment rfl (List.forall_mem_singleton.mpr (validated_ofFragment rfl nofun))

theorem validated_both {x y : Typed PointKey Digest}
    (fits : composes .segwit (.wrap .alt y : Fragment PointKey Digest _) = true)
    (fits' : composes .segwit (.pair .andB x (ofFragment .segwit (.wrap .alt y))) = true)
    (validX : Validated .segwit x) (validY : Validated .segwit y) : Validated .segwit (both x y) := by
  refine validated_ofFragment fits' (List.forall_mem_cons.mpr ⟨validX, List.forall_mem_singleton.mpr ?_⟩)
  exact validated_ofFragment fits (List.forall_mem_singleton.mpr validY)

theorem validated_groupsOrSingle : Validated .segwit groupsOrSingle := by
  have pk (x : UInt8) : Validated .segwit (pk .segwit (pointOfByte x) : Typed PointKey Digest) :=
    validated_pk rfl
  have composed {fragment : Fragment PointKey Digest (Typed PointKey Digest)}
      (fits : composes .segwit fragment = true)
      (below : ∀ x ∈ fragment.children, Validated .segwit x) := validated_ofFragment fits below
  refine composed rfl (List.forall_mem_cons.mpr ⟨?_, List.forall_mem_singleton.mpr (pk 16)⟩)
  refine composed rfl (List.forall_mem_cons.mpr ⟨?_, List.forall_mem_singleton.mpr ?_⟩)
  · refine composed rfl (List.forall_mem_cons.mpr ⟨?_, List.forall_mem_singleton.mpr ?_⟩)
    · exact composed rfl (List.forall_mem_singleton.mpr (pk 1))
    · exact composed rfl nofun
  · refine validated_both rfl rfl (validated_pkh 12) ?_
    exact validated_both rfl rfl (validated_pkh 13) (validated_pkh 14)

/-- Keys in ascending order, one compared with the next. -/
theorem pairwise_of_isChain {keys : List PointKey} (chain : keys.IsChain fun a b => compare a b = .lt) :
    keys.Pairwise fun a b => compare a b = .lt := by
  have transitive : IsTrans PointKey fun a b => compare a b = .lt := by
    refine ⟨fun a b c (less : compare a.bytes b.bytes = .lt) less' => ?_⟩
    exact show compare a.bytes c.bytes = .lt from Std.TransCmp.lt_trans less less'
  exact List.isChain_iff_pairwise.mp chain

theorem ascending_groupsOrSingle : groupsOrSingle.keys.Pairwise fun a b => compare a b = .lt :=
  pairwise_of_isChain (by decide +kernel)

theorem checkSanity_groupsOrSingle : groupsOrSingle.checkSanity .segwit .none = .ok () :=
  checkSanity_eq_ok.mpr
    ⟨rfl, by decide +kernel, rfl, hasRepetition_eq_false ascending_groupsOrSingle, rfl⟩

/-- Signatures by the first key and by the last. -/
def firstAndLast : Material PointKey :=
  { Material.none with
    ecdsa := fun key =>
      if key = pointOfByte 1 then some (List.replicate 71 0x11)
      else if key = pointOfByte 16 then some (List.replicate 71 0x22) else none }

/-- The two signatures verify, and no others. -/
def verifiesFirstAndLast : Evaluator :=
  .ofSignatures .ecdsa [((pointOfByte 1).bytes, List.replicate 71 0x11),
    ((pointOfByte 16).bytes, List.replicate 71 0x22)]

theorem ecdsa_firstAndLast {key : PointKey} {signature : Bytes}
    (found : firstAndLast.ecdsa key = some signature) :
    key = pointOfByte 1 ∧ signature = List.replicate 71 0x11 ∨
      key = pointOfByte 16 ∧ signature = List.replicate 71 0x22 := by
  change (if key = pointOfByte 1 then _ else _) = _ at found
  split at found
  next same => exact .inl ⟨same, (Option.some.inj found).symm⟩
  next =>
    obtain ⟨same, found⟩ := Option.ite_none_right_eq_some.mp found
    exact .inr ⟨same, (Option.some.inj found).symm⟩

theorem genuine_firstAndLast (leafHash : LeafHash) : firstAndLast.Genuine verifiesFirstAndLast leafHash := by
  refine ⟨fun key signature found => ?_, fun key signature found => ?_, fun digest secret found => ?_,
    fun _ => rfl, fun _ => rfl⟩
  · obtain ⟨rfl, rfl⟩ | ⟨rfl, rfl⟩ := ecdsa_firstAndLast found
    · exact Evaluator.checkSig_ofSignatures.mpr ⟨List.cons_ne_nil _ _, List.mem_cons_self⟩
    · exact Evaluator.checkSig_ofSignatures.mpr
        ⟨List.cons_ne_nil _ _, List.mem_cons_of_mem _ List.mem_cons_self⟩
  · obtain ⟨_, rfl⟩ | ⟨_, rfl⟩ := ecdsa_firstAndLast found <;> decide
  · cases found

theorem regular_firstAndLast : firstAndLast.Regular where
  ecdsa key signature found := by obtain ⟨_, rfl⟩ | ⟨_, rfl⟩ := ecdsa_firstAndLast found <;> decide
  schnorr _ _ _ found := by cases found

/-- The search dissatisfies six keys together with a signature by `A`, which takes fewer bytes than to
reveal three keys, and one element more. -/
theorem exists_longer_witness : ∃ (t : Typed PointKey Digest) (e : Evaluator)
    (material : Material PointKey) (witness : List Bytes), Validated .segwit t ∧
      t.checkSanity .segwit .none = .ok () ∧ e.scheme = .ecdsa ∧
      material.Genuine e (t.leafHash .segwit) ∧ material.Consistent ∧ material.Regular ∧
      t.satisfy .segwit .nonMalleable material = .ok witness ∧ t.maxWitnessItems = some 9 ∧
      ¬witness.length + 1 ≤ 9 := by
  have found : groupsOrSingle.satisfy .segwit .nonMalleable firstAndLast =
      .ok (List.replicate 71 0x22 :: List.replicate 6 [] ++ [List.replicate 71 0x11, [1]]) := by
    decide +kernel
  exact ⟨groupsOrSingle, verifiesFirstAndLast, firstAndLast, _, validated_groupsOrSingle,
    checkSanity_groupsOrSingle, rfl, genuine_firstAndLast _, ⟨nofun, nofun⟩, regular_firstAndLast, found,
    rfl, by decide⟩

end Typed

end LockScript
