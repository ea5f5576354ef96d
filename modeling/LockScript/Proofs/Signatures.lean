import LockScript.Proofs.Answers

/-! # Checks of signatures

A check of one signature has an outcome, or aborts if failing checks with a signature do. Checks of
several keys are told here by which of the keys have a signature: a `multi` holds if its signatures
are by some of its keys in order, and a `multi_a` counts the places that hold a signature.
-/

namespace LockScript

namespace Evaluator

/-- The rules under which listed signatures verify, each under the key that it is listed with, and no
lock is met. -/
def ofSignatures (scheme : SignatureScheme) (entries : List (Bytes × Bytes)) : Evaluator where
  scheme
  verifies key signature := entries.contains (key, signature)
  meetsAfter _ := false
  meetsOlder _ := false
  nullFail := true

variable {e : Evaluator} {key signature : Bytes} {keys signatures : List Bytes} {answer passed : Bool}

@[simp] theorem checkSig_nil (key : Bytes) : e.checkSig key [] = false :=
  rfl

theorem ne_nil_of_checkSig (checked : e.checkSig key signature = true) : signature ≠ [] := by
  rintro rfl
  cases checked

theorem checkSig_ofSignatures {scheme : SignatureScheme} {entries : List (Bytes × Bytes)} :
    (ofSignatures scheme entries).checkSig key signature = true ↔
      signature ≠ [] ∧ (key, signature) ∈ entries := by
  simp [checkSig, ofSignatures]

theorem verdict?_eq_some : e.verdict? passed signatures = some answer ↔
    answer = passed ∧ (e.nullFail = true → answer = false → ∀ s ∈ signatures, s = []) := by
  rw [verdict?]
  constructor
  · intro decided
    split at decided
    next => cases decided
    next clean =>
      cases decided
      refine ⟨rfl, fun strict failed => ?_⟩
      simpa [strict, failed] using clean
  · rintro ⟨rfl, clean⟩
    rw [if_neg]
    cases answer with
    | true => simp
    | false => simpa using fun strict => clean strict rfl

theorem sigVerdict?_eq_some : e.sigVerdict? key signature = some answer ↔
    answer = e.checkSig key signature ∧ (e.nullFail = true → answer = false → signature = []) := by
  rw [sigVerdict?, verdict?_eq_some]
  simp only [List.mem_singleton, forall_eq]

theorem sigVerdict?_true : e.sigVerdict? key signature = some true ↔ e.checkSig key signature = true := by
  rw [sigVerdict?_eq_some, eq_comm]
  simp only [Bool.true_eq_false, false_imp_iff, implies_true, and_true]

/-- An empty signature fails without aborting. -/
theorem sigVerdict?_nil (key : Bytes) : e.sigVerdict? key [] = some false := by
  simp [sigVerdict?_eq_some]

/-- Taking the first key that fits each signature never misses a way to place them. -/
theorem checkSigs_iff : e.checkSigs signatures keys = true ↔
    ∃ chosen, List.Sublist chosen keys ∧
      List.Forall₂ (fun signature key => e.checkSig key signature = true) signatures chosen := by
  constructor
  · intro checked
    induction keys generalizing signatures with
    | nil =>
      cases signatures with
      | nil => exact ⟨[], .slnil, .nil⟩
      | cons signature signatures => cases checked
    | cons key keys ih =>
      cases signatures with
      | nil => exact ⟨[], List.nil_sublist _, .nil⟩
      | cons signature signatures =>
        rw [checkSigs] at checked
        split at checked
        next fits =>
          obtain ⟨chosen, among, each⟩ := ih checked
          exact ⟨key :: chosen, among.cons_cons key, .cons fits each⟩
        next =>
          obtain ⟨chosen, among, each⟩ := ih checked
          exact ⟨chosen, among.cons key, each⟩
  · rintro ⟨chosen, among, each⟩
    induction keys generalizing signatures chosen with
    | nil =>
      cases List.eq_nil_of_sublist_nil among
      cases each
      rfl
    | cons key keys ih =>
      cases each with
      | nil => rfl
      | @cons signature first signatures chosen fits each =>
        rw [checkSigs]
        split
        next => exact ih chosen among.tail each
        next unfit =>
          cases among with
          | cons _ among => exact ih _ among (.cons fits each)
          | cons_cons _ among => exact absurd fits unfit

/-- Only signatures are placed. -/
theorem ne_nil_of_checkSigs (checked : e.checkSigs signatures keys = true) :
    ∀ signature ∈ signatures, signature ≠ [] := by
  obtain ⟨chosen, _, each⟩ := checkSigs_iff.mp checked
  intro signature member
  obtain ⟨key, _, fits⟩ := exists_of_mem_forall₂ each.flip member
  exact ne_nil_of_checkSig fits

/-- Empty elements in the places of signatures fail without aborting. -/
theorem verdict?_replicate_nil {k : Nat} (positive : 0 < k) (keys : List Bytes) :
    e.verdict? (e.checkSigs (List.replicate k []) keys) (List.replicate k []) = some false := by
  have failed : e.checkSigs (List.replicate k []) keys = false := by
    rw [Bool.eq_false_iff]
    intro checked
    exact ne_nil_of_checkSigs checked [] (List.mem_replicate.mpr ⟨Nat.ne_of_gt positive, rfl⟩) rfl
  rw [failed, verdict?_eq_some]
  exact ⟨rfl, fun _ _ s member => List.eq_of_mem_replicate member⟩

theorem countSigs?_cons {count : Nat} :
    e.countSigs? (key :: keys) signatures = some count ↔
      ∃ passed signature rest others, signatures = signature :: rest ∧
        e.sigVerdict? key signature = some passed ∧ e.countSigs? keys rest = some others ∧
        count = passed.toNat + others := by
  cases signatures with
  | nil => simp [countSigs?]
  | cons signature rest =>
    simp only [countSigs?, Option.bind_eq_bind, Option.bind_eq_some_iff, Option.pure_def,
      Option.some.injEq]
    constructor
    · rintro ⟨passed, verdict, others, counted, rfl⟩
      exact ⟨passed, signature, rest, others, rfl, verdict, counted, rfl⟩
    · rintro ⟨passed, _, _, others, split, verdict, counted, rfl⟩
      obtain ⟨rfl, rfl⟩ := List.cons.inj split
      exact ⟨passed, verdict, others, counted, rfl⟩

theorem countSigs?_nil {count : Nat} :
    e.countSigs? [] signatures = some count ↔ signatures = [] ∧ count = 0 := by
  cases signatures <;> simp [countSigs?, eq_comm]

theorem length_of_countSigs? {count : Nat}
    (counted : e.countSigs? keys signatures = some count) :
    signatures.length = keys.length ∧ count ≤ keys.length := by
  induction keys generalizing signatures count with
  | nil =>
    obtain ⟨rfl, rfl⟩ := countSigs?_nil.mp counted
    exact ⟨rfl, Nat.le_refl 0⟩
  | cons key keys ih =>
    obtain ⟨passed, signature, rest, others, rfl, _, further, rfl⟩ := countSigs?_cons.mp counted
    obtain ⟨width, bounded⟩ := ih further
    have := Bool.toNat_le passed
    rw [List.length_cons, List.length_cons]
    exact ⟨congrArg (· + 1) width, by omega⟩

/-- Empty elements in all places count as none. -/
theorem countSigs?_replicate_nil (keys : List Bytes) :
    e.countSigs? keys (List.replicate keys.length []) = some 0 := by
  induction keys with
  | nil => rfl
  | cons key keys ih =>
    rw [List.length_cons, List.replicate_succ, countSigs?_cons]
    exact ⟨false, [], _, 0, rfl, sigVerdict?_nil key, ih, rfl⟩

/-- Each key has a place, where a check has an outcome. -/
theorem countSigs?_eq_some {count : Nat} : e.countSigs? keys signatures = some count ↔
    ∃ places : List (Bool × Bytes),
      List.Forall₂ (fun key place => e.sigVerdict? key place.2 = some place.1) keys places ∧
        signatures = places.map Prod.snd ∧ count = places.countP Prod.fst := by
  induction keys generalizing signatures count with
  | nil =>
    rw [countSigs?_nil]
    constructor
    · rintro ⟨rfl, rfl⟩
      exact ⟨[], .nil, rfl, rfl⟩
    · rintro ⟨places, each, rfl, rfl⟩
      cases each
      exact ⟨rfl, rfl⟩
  | cons key keys ih =>
    rw [countSigs?_cons]
    constructor
    · rintro ⟨passed, signature, rest, others, rfl, verdict, counted, rfl⟩
      obtain ⟨places, each, rfl, rfl⟩ := ih.mp counted
      refine ⟨(passed, signature) :: places, .cons verdict each, rfl, ?_⟩
      rw [List.countP_cons, Nat.add_comm]
      cases passed <;> rfl
    · rintro ⟨_, each, rfl, rfl⟩
      cases each with
      | @cons _ place _ places verdict each =>
        refine ⟨place.1, place.2, places.map Prod.snd, places.countP Prod.fst, rfl, verdict,
          ih.mpr ⟨places, each, rfl, rfl⟩, ?_⟩
        rw [List.countP_cons, Nat.add_comm]
        cases place.1 <;> rfl

end Evaluator

/-- Signatures by the second and the fourth key of two of three. -/
def secondAndFourth : List (PointKey × Bytes) :=
  [(Typed.pointOfByte 2, List.replicate 71 0x22), (Typed.pointOfByte 4, List.replicate 71 0x44)]

/-- The rules under which these verify, and no others. -/
def Evaluator.verifiesSecondAndFourth : Evaluator :=
  .ofSignatures .ecdsa (secondAndFourth.map fun entry => (PublicKey.pushed .ecdsa entry.1, entry.2))

/-- The witness for two of three that takes both signatures and the secret, and nothing for the third key. -/
def Typed.twoOfThreeWitness : List Bytes :=
  [secretOfOnes.toList, List.replicate 71 0x44, [1], [], [], List.replicate 71 0x22]

end LockScript
