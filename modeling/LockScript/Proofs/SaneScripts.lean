import LockScript.Proofs.Policy
import LockScript.Proofs.RunBound
import LockScript.Proofs.Sanity
import LockScript.Proofs.SatisfactionSize

/-! # Sane conditions as whole scripts

The rules of sanity say nothing about the base type. A `B` is a script in its own right. A `V` leaves nothing
and a `W` too much, so what is found for these is refused. A `K` leaves a key in place of an answer, which
is accepted without the signature that the key is for.
-/

namespace LockScript

open Material (secondAndFourthWithSecret)

namespace Evaluator

variable {e : Evaluator} {rel : AnswerRel} {unit : Bool} {script : Script} {witness : List Bytes}

theorem acceptsScript_eq_true : e.acceptsScript script witness = true ↔
    ∃ top alt, e.exec script ⟨witness.reverse, []⟩ = some ⟨[top], alt⟩ ∧ top.isTrue = true := by
  unfold acceptsScript
  split
  next top alt ran => simp [ran]
  next other =>
    refine iff_of_false Bool.false_ne_true ?_
    rintro ⟨top, alt, ran, _⟩
    exact other top alt ran

/-- At the end of a `V` only one element is left if it was there before. -/
theorem AnswersV.of_acceptsScript (x : e.AnswersV rel script) (accepted : e.acceptsScript script witness = true) :
    ∃ taken top, witness.reverse = taken ++ [top] ∧ rel true taken := by
  obtain ⟨top, alt, ran, _⟩ := acceptsScript_eq_true.mp accepted
  obtain ⟨taken, rest, shape, run, left⟩ := x.sound ran
  cases left
  exact ⟨taken, top, shape, run⟩

theorem AnswersV.not_acceptsScript (x : e.AnswersV rel script) (run : rel true witness.reverse) :
    ¬ e.acceptsScript script witness = true := by
  intro accepted
  obtain ⟨top, alt, ran, _⟩ := acceptsScript_eq_true.mp accepted
  have left := x.complete [] [] run
  rw [List.append_nil, ran] at left
  cases left

theorem AnswersW.not_acceptsScript (x : e.AnswersW rel unit script) :
    ¬ e.acceptsScript script witness = true := by
  intro accepted
  obtain ⟨top, alt, ran, _⟩ := acceptsScript_eq_true.mp accepted
  obtain ⟨_, _, _, _, _, _, _, _, left | left⟩ := x.sound ran <;> cases left

/-- Where a check of signatures can follow, there is a signature below the key. -/
theorem AnswersB.not_acceptsScript_of_check (x : e.AnswersB rel unit (script ++ [.op .checkSig]))
    (balanced : e.Balanced script) (run : rel true witness.reverse) :
    ¬ e.acceptsScript script witness = true := by
  intro accepted
  obtain ⟨top, alt, ran, _⟩ := acceptsScript_eq_true.mp accepted
  obtain ⟨_, _, checked⟩ := x.complete [] [] run
  rw [List.append_nil, balanced.exec_append_eq_some] at checked
  obtain ⟨middle, same, checked⟩ := checked
  cases same.symm.trans ran
  cases checked

end Evaluator

/-- Signatures by keys that sign with themselves. -/
def Material.selfSigned : Material PointKey :=
  { none with ecdsa := fun key => some (PublicKey.pushed .ecdsa key) }

/-- The checks where every key signs with itself, and no lock is met. -/
def Evaluator.selfSigned : Evaluator :=
  ⟨.ecdsa, fun key signature => key == signature, fun _ => false, fun _ => false, true⟩

theorem Material.genuine_selfSigned (leafHash : LeafHash) : selfSigned.Genuine .selfSigned leafHash where
  verifies key _ found := by
    cases found
    have some := List.ne_nil_of_length_pos (PublicKey.length_pushed_pos .ecdsa key)
    simp [Evaluator.checkSig, Evaluator.selfSigned, some]
  length_le key _ found := by
    cases found
    exact (PublicKey.length_pushed_le .ecdsa key).trans (by decide)
  opens _ _ := nofun
  meetsAfter_eq _ := rfl
  meetsOlder_eq _ := rfl

namespace Typed.Validated

open Evaluator

variable {κ : Type} [PublicKey κ] {e : Evaluator} {context : Context} {t : Typed κ Digest}
  {material : Material κ} {witness : List Bytes}

/-- What is found for a condition that cannot be malleated makes it answer yes, whatever its base type. -/
theorem answers_of_satisfy (same : e.scheme = context.scheme) (valid : Validated context t)
    (counts : t.CountsBelow (2 ^ 39)) (nonMalleable : t.type.malleability.nonMalleable = true)
    (genuine : material.Genuine e (t.leafHash context))
    (descends : t.AvoidsZeros ∨ (t.search context .nonMalleable material).DissatisfiesByType t)
    (found : t.satisfy context .nonMalleable material = .ok witness) :
    t.Answers e false true witness.reverse := by
  let search := t.search context .nonMalleable material
  have gives {matters : Typed κ Digest → Prop} (descends : search.DescendsThrough matters t) :
      t.Answers e false true witness.reverse := by
    have fits : (search.outcomes t).Gives (t.FitsWhere e (matters t)) :=
      gives_where genuine same.symm valid counts descends
    exact (fits.sat witness (satisfy_eq_ok.mp found) (.inl rfl)).1
  obtain avoids | byType := descends
  · exact gives (descendsThrough_of_avoidsZeros avoids)
  · exact gives (valid.descendsThrough_of_nonMalleable nonMalleable byType)

/-- A witness on which a condition answers yes is accepted if and only if the condition may be a script in
its own right. -/
theorem accepts_iff_isTopLevel (same : e.scheme = context.scheme) (valid : Validated context t)
    (counts : t.CountsBelow (2 ^ 64)) (run : t.Answers e false true witness.reverse) :
    e.accepts (t.script context).bytes witness = true ↔ t.type.isTopLevel = true := by
  rw [e.accepts_bytes (t.isShort_script context counts)]
  cases base : t.type.soundness.base
  case B =>
    have top : t.type.isTopLevel = true := beq_iff_eq.mpr base
    exact iff_of_true ((valid.acceptsScript_iff same top witness).mpr run) top
  all_goals
    have notTop : ¬ t.type.isTopLevel = true := by simp [FragmentType.isTopLevel, base]
    refine iff_of_false ?_ notTop
  case K => exact (valid.answersK same base).not_acceptsScript_of_check (e.balanced_script context t) run
  case V => exact (valid.answersV same base).not_acceptsScript run
  case W => exact (valid.answersW same base).not_acceptsScript

/-- If the script of a condition accepts a witness, the condition has answered yes on a part of it, unless it
leaves a key as its answer. -/
theorem exists_yes_of_accepts (same : e.scheme = context.scheme) (valid : Validated context t)
    (counts : t.CountsBelow (2 ^ 64)) (answers : t.type.soundness.base ≠ .K)
    (accepted : e.accepts (t.script context).bytes witness = true) :
    ∃ taken, (∀ element ∈ taken, element ∈ witness) ∧ t.Answers e false true taken := by
  rw [e.accepts_bytes (t.isShort_script context counts)] at accepted
  cases base : t.type.soundness.base
  case B =>
    have run := (valid.acceptsScript_iff same (beq_iff_eq.mpr base) witness).mp accepted
    exact ⟨_, fun element member => List.mem_reverse.mp member, run⟩
  case K => exact absurd base answers
  case V =>
    obtain ⟨taken, top, shape, run⟩ := (valid.answersV same base).of_acceptsScript accepted
    refine ⟨taken, fun element member => List.mem_reverse.mp ?_, run⟩
    exact shape ▸ List.mem_append_left _ member
  case W => exact absurd accepted (valid.answersW same base).not_acceptsScript

/-- What sanity guarantees. Of a sane condition, the witnesses that are found are accepted if and only if the
condition may be a script in its own right. All witnesses that are accepted hold a signature by one of its keys,
unless it leaves a key as its answer. Counts below `2 ^ 39` are script numbers that the script can read back. -/
theorem guarantees_of_checkSanity (same : e.scheme = context.scheme) (valid : Validated context t)
    (counts : t.CountsBelow (2 ^ 39)) (sane : t.checkSanity context .none = .ok ()) :
    (∀ (material : Material κ) (witness : List Bytes), material.Genuine e (t.leafHash context) →
      t.AvoidsZeros ∨ (t.search context .nonMalleable material).DissatisfiesByType t →
      t.satisfy context .nonMalleable material = .ok witness →
      (e.accepts (t.script context).bytes witness = true ↔ t.type.isTopLevel = true)) ∧
    (t.type.soundness.base ≠ .K → ∀ witness, e.OpensOnly witness t.keys →
      e.accepts (t.script context).bytes witness = true →
      ∃ signature ∈ witness, ∃ key ∈ t.keys,
        e.checkSig (PublicKey.pushed context.scheme key) signature = true) := by
  obtain ⟨safe, relays, _⟩ := checkSanity_eq_ok.mp sane
  have nonMalleable := (Bool.and_eq_true_iff.mp relays).1
  have narrow : t.CountsBelow (2 ^ 64) := counts.mono (by decide)
  constructor
  · intro material witness genuine descends found
    exact valid.accepts_iff_isTopLevel same narrow
      (valid.answers_of_satisfy same counts nonMalleable genuine descends found)
  · intro answers witness opens accepted
    obtain ⟨taken, among, run⟩ := valid.exists_yes_of_accepts same narrow answers accepted
    obtain ⟨key, member, signed⟩ := valid.exists_signature safe (Condition.holds_of_yes run among opens)
    obtain ⟨signature, within, checked⟩ := List.any_eq_true.mp signed
    exact ⟨signature, within, key, member, same ▸ checked⟩

/-- Two of three are sane, and accepted with two signatures and a secret. -/
theorem guarantees_of_checkSanity_twoOfThree : Validated .segwit twoOfThree ∧
    twoOfThree.checkSanity .segwit .none = .ok () ∧ twoOfThree.CountsBelow (2 ^ 39) ∧
      secondAndFourthWithSecret.Genuine .verifiesSecondAndFourth (twoOfThree.leafHash .segwit) ∧
      (twoOfThree.search .segwit .nonMalleable secondAndFourthWithSecret).DissatisfiesByType twoOfThree ∧
      twoOfThree.satisfy .segwit .nonMalleable secondAndFourthWithSecret = .ok twoOfThreeWitness ∧
      Evaluator.verifiesSecondAndFourth.OpensOnly twoOfThreeWitness twoOfThree.keys ∧
      Evaluator.verifiesSecondAndFourth.accepts (twoOfThree.script .segwit).bytes twoOfThreeWitness = true ∧
      ∃ signature ∈ twoOfThreeWitness, ∃ key ∈ twoOfThree.keys,
        Evaluator.verifiesSecondAndFourth.checkSig (PublicKey.pushed .ecdsa key) signature = true := by
  have ascending : twoOfThree.keys.IsChain fun a b => compare a b = .lt := by
    rw [keys_twoOfThree]
    decide +kernel
  have limited : twoOfThree.withinLimits .segwit = true := by
    rw [withinLimits, metrics, sat_twoOfThree]
    decide +kernel
  have sane : twoOfThree.checkSanity .segwit .none = .ok () :=
    checkSanity_eq_ok.mpr ⟨rfl, by decide +kernel, limited,
      hasRepetition_eq_false (pairwise_of_isChain ascending), rfl⟩
  have genuine := Material.genuine_secondAndFourthWithSecret (twoOfThree.leafHash .segwit)
  have byType := dissatisfiesByType_twoOfThree
    (twoOfThree.search .segwit .nonMalleable secondAndFourthWithSecret)
  obtain ⟨accepts, signed⟩ := guarantees_of_checkSanity (e := .verifiesSecondAndFourth) rfl
    validated_twoOfThree countsBelow_twoOfThree sane
  have accepted := (accepts _ _ genuine (.inr byType) satisfy_twoOfThree).mpr rfl
  exact ⟨validated_twoOfThree, sane, countsBelow_twoOfThree, genuine, byType, satisfy_twoOfThree,
    opensOnly_twoOfThree, accepted, signed (by decide) _ opensOnly_twoOfThree accepted⟩

end Typed.Validated

namespace Typed

/-- A bare key is sane. The witness that is found for it leaves a signature below the key and is refused, and
the empty witness is accepted. -/
theorem exists_sane_unsigned : ∃ (t : Typed PointKey Digest) (witness : List Bytes),
    Validated .segwit t ∧ t.checkSanity .segwit .none = .ok () ∧
      Material.selfSigned.Genuine .selfSigned (t.leafHash .segwit) ∧
      t.satisfy .segwit .nonMalleable Material.selfSigned = .ok witness ∧
      Evaluator.selfSigned.accepts (t.script .segwit).bytes witness = false ∧
      Evaluator.selfSigned.accepts (t.script .segwit).bytes [] = true := by
  let key := pointOfByte 1
  let t : Typed PointKey Digest := ofFragment .segwit (.leaf (.key key))
  have valid : Validated .segwit t := validated_ofFragment rfl (List.forall_mem_nil _)
  have keys : t.keys = [key] := Condition.keys_leaf ..
  have sane : t.checkSanity .segwit .none = .ok () :=
    checkSanity_eq_ok.mpr
      ⟨rfl, by decide +kernel, rfl, hasRepetition_eq_false (keys ▸ List.pairwise_singleton _ _), rfl⟩
  have found : t.satisfy .segwit .nonMalleable Material.selfSigned = .ok [PublicKey.pushed .ecdsa key] := by
    decide +kernel
  have refused : Evaluator.selfSigned.accepts (t.script .segwit).bytes [PublicKey.pushed .ecdsa key] = false := by
    decide +kernel
  have accepted : Evaluator.selfSigned.accepts (t.script .segwit).bytes [] = true := by decide +kernel
  exact ⟨t, _, valid, sane, Material.genuine_selfSigned _, found, refused, accepted⟩

/-- A secret of zeros with a signature by `A`, or four keys that are revealed, or another key:
`or_d(or_i(and_v(v:pk(A),sha256(…)),and_b(…)),pk(Z))`. -/
def zerosOrRevealed : Typed PointKey Digest :=
  ofFragment .segwit (.pair .orD
    (ofFragment .segwit (.pair .orI
      (ofFragment .segwit (.pair .andV
        (ofFragment .segwit (.wrap .verify (pk .segwit (pointOfByte 1))))
        (ofFragment .segwit (.leaf (.digest (.ofMessage .sha256 (List.replicate 32 0)))))))
      (both (pkh 8) (both (pkh 12) (both (pkh 13) (pkh 14))))))
    (pk .segwit (pointOfByte 16)))

theorem validated_zerosOrRevealed : Validated .segwit zerosOrRevealed := by
  have pk (x : UInt8) : Validated .segwit (pk .segwit (pointOfByte x) : Typed PointKey Digest) :=
    validated_pk rfl
  have composed {fragment : Fragment PointKey Digest (Typed PointKey Digest)}
      (fits : composes .segwit fragment = true)
      (below : ∀ x ∈ fragment.children, Validated .segwit x) := validated_ofFragment fits below
  refine composed rfl (List.forall_mem_cons.mpr ⟨?_, List.forall_mem_singleton.mpr (pk 16)⟩)
  refine composed rfl (List.forall_mem_cons.mpr ⟨?_, List.forall_mem_singleton.mpr ?_⟩)
  · refine composed rfl (List.forall_mem_cons.mpr ⟨?_, List.forall_mem_singleton.mpr ?_⟩)
    · exact composed rfl (List.forall_mem_singleton.mpr (pk 1))
    · exact composed rfl nofun
  · refine validated_both rfl rfl (validated_pkh 8) (validated_both rfl rfl (validated_pkh 12) ?_)
    exact validated_both rfl rfl (validated_pkh 13) (validated_pkh 14)

/-- Where zeros are a secret, the witness that is found may be refused: here it satisfies the part that it
was to dissatisfy, and leaves the signature by `Z`. -/
theorem exists_sane_refused : ∃ (t : Typed PointKey Digest) (witness : List Bytes),
    Validated .segwit t ∧ t.checkSanity .segwit .none = .ok () ∧ t.type.isTopLevel = true ∧
      firstAndLast.Genuine verifiesFirstAndLast (t.leafHash .segwit) ∧
      t.satisfy .segwit .nonMalleable firstAndLast = .ok witness ∧
      verifiesFirstAndLast.accepts (t.script .segwit).bytes witness = false := by
  have sane : zerosOrRevealed.checkSanity .segwit .none = .ok () :=
    checkSanity_eq_ok.mpr
      ⟨rfl, by decide +kernel, rfl, hasRepetition_eq_false (pairwise_of_isChain (by decide +kernel)), rfl⟩
  have found : zerosOrRevealed.satisfy .segwit .nonMalleable firstAndLast =
      .ok [List.replicate 71 0x22, List.replicate 32 0, List.replicate 71 0x11, [1]] := by
    decide +kernel
  have refused : verifiesFirstAndLast.accepts (zerosOrRevealed.script .segwit).bytes
      [List.replicate 71 0x22, List.replicate 32 0, List.replicate 71 0x11, [1]] = false := by
    decide +kernel
  exact ⟨zerosOrRevealed, _, validated_zerosOrRevealed, sane, rfl, genuine_firstAndLast _, found, refused⟩

end Typed

end LockScript
