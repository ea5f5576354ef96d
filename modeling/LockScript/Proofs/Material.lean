import LockScript.Proofs.Parsing
import LockScript.Satisfaction.Search

/-! # Genuine material

Material is genuine if the checks of a script pass on it: every signature verifies, every secret has
the digest that it is for, and a lock is met if its opcode says so. From genuine material each leaf
finds stacks on which it answers as it should.
-/

namespace LockScript

/-- Material that an evaluator agrees with. A signature has at most 73 bytes in either scheme. -/
structure Material.Genuine {κ : Type} [PublicKey κ] (material : Material κ) (e : Evaluator)
    (leafHash : LeafHash) : Prop where
  verifies : ∀ key signature, material.signature? e.scheme leafHash key = some signature →
    e.checkSig (PublicKey.pushed e.scheme key) signature = true
  length_le : ∀ key signature, material.signature? e.scheme leafHash key = some signature →
    signature.length ≤ 73
  opens : ∀ digest secret, material.secret digest = some secret →
    digest.kind.hash secret.toList = digest.bytes
  meetsAfter_eq : ∀ lock, material.meetsAfter lock = e.meetsAfter lock.value
  meetsOlder_eq : ∀ lock, material.meetsOlder lock = e.meetsOlder lock.value

section Choice

/-- What is left out is one of the longest signatures. -/
theorem dropLongest_sublist (signatures : List Bytes) :
    (dropLongest signatures).Sublist signatures := by
  rw [dropLongest, ← List.reverse_sublist, List.reverse_reverse]
  exact List.eraseP_sublist

private theorem foldr_max_mem {lengths : List Nat} (nonempty : lengths ≠ []) :
    lengths.foldr max 0 ∈ lengths := by
  induction lengths with
  | nil => exact absurd rfl nonempty
  | cons first rest ih =>
    rw [List.foldr_cons]
    rcases Nat.le_total (rest.foldr max 0) first with le | le
    · rw [Nat.max_eq_left le]
      exact List.mem_cons_self
    · rw [Nat.max_eq_right le]
      by_cases none : rest = []
      · subst none
        rw [List.foldr_nil, Nat.le_zero] at le
        exact le ▸ List.mem_cons_self
      · exact List.mem_cons_of_mem first (ih none)

theorem length_dropLongest (signatures : List Bytes) :
    (dropLongest signatures).length = signatures.length - 1 := by
  by_cases nonempty : signatures = []
  · subst nonempty
    rfl
  · have longest : (signatures.map List.length).foldr max 0 ∈ signatures.map List.length :=
      foldr_max_mem (by simpa using nonempty)
    obtain ⟨signature, member, length⟩ := List.mem_map.mp longest
    rw [dropLongest, List.length_reverse,
      List.length_eraseP_of_mem (List.mem_reverse.mpr member) (by simp [length]),
      List.length_reverse]

theorem keepShortest_sublist (k : Nat) (signatures : List Bytes) :
    (keepShortest k signatures).Sublist signatures ∧
      (k ≤ signatures.length → (keepShortest k signatures).length = k) := by
  have drops (times : Nat) :
      let kept := (List.range times).foldl (fun kept _ => dropLongest kept) signatures
      kept.Sublist signatures ∧ kept.length = signatures.length - times := by
    induction times with
    | zero => exact ⟨.refl _, rfl⟩
    | succ times ih =>
      rw [List.range_succ, List.foldl_append]
      exact ⟨(dropLongest_sublist _).trans ih.1, by
        rw [List.foldl_cons, List.foldl_nil, length_dropLongest, ih.2, Nat.sub_sub]⟩
  obtain ⟨sublist, length⟩ := drops (signatures.length - k)
  refine ⟨sublist, fun enough => ?_⟩
  rw [keepShortest, length]
  omega

/-- What is done with one slot: the number of signatures missing and the items so far. -/
private def fillSlot (state : Nat × List Bytes) (slot : Option Bytes) : Nat × List Bytes :=
  match state.1, slot with
  | left + 1, some s => (left, s :: state.2)
  | left, _ => (left, [] :: state.2)

private theorem fillSlots?_eq (k : Nat) (slots : List (Option Bytes)) : fillSlots? k slots =
    if (slots.foldl fillSlot (k, [])).1 = 0 then some (slots.foldl fillSlot (k, [])).2.reverse
    else none :=
  rfl

/-- A place holds the signature of its slot, or nothing. -/
def Fills (slot : Option Bytes) (place : Bool × Bytes) : Prop :=
  (place.1 = true ∧ slot = some place.2) ∨ place = (false, [])

/-- The signatures in the places that hold one. -/
def placedSignatures (places : List (Bool × Bytes)) : List Bytes :=
  (places.filter Prod.fst).map Prod.snd

theorem length_placedSignatures (places : List (Bool × Bytes)) :
    (placedSignatures places).length = places.countP Prod.fst := by
  rw [placedSignatures, List.length_map, List.countP_eq_length_filter]

private theorem foldl_fillSlot (slots : List (Option Bytes)) (missing : Nat) (reversed : List Bytes) :
    ∃ places, List.Forall₂ Fills slots places ∧
      placedSignatures places = (slots.filterMap id).take missing ∧
      slots.foldl fillSlot (missing, reversed) =
        (missing - places.countP Prod.fst, (places.map Prod.snd).reverse ++ reversed) := by
  induction slots generalizing missing reversed with
  | nil => exact ⟨[], .nil, by simp [placedSignatures], rfl⟩
  | cons slot slots ih =>
    have skip (same : fillSlot (missing, reversed) slot = (missing, [] :: reversed))
        (unused : ((slot :: slots).filterMap id).take missing = (slots.filterMap id).take missing) :
        ∃ places, List.Forall₂ Fills (slot :: slots) places ∧
          placedSignatures places = ((slot :: slots).filterMap id).take missing ∧
          (slot :: slots).foldl fillSlot (missing, reversed) =
            (missing - places.countP Prod.fst, (places.map Prod.snd).reverse ++ reversed) := by
      obtain ⟨places, each, first, folded⟩ := ih missing ([] :: reversed)
      refine ⟨(false, []) :: places, .cons (.inr rfl) each, first.trans unused.symm, ?_⟩
      rw [List.foldl_cons, same, folded]
      simp
    cases missing with
    | zero => exact skip rfl rfl
    | succ left =>
      cases slot with
      | none => exact skip rfl rfl
      | some signature =>
        obtain ⟨places, each, first, folded⟩ := ih left (signature :: reversed)
        refine ⟨(true, signature) :: places, .cons (.inl ⟨rfl, rfl⟩) each, ?_, ?_⟩
        · exact congrArg (signature :: ·) first
        · rw [List.foldl_cons]
          refine folded.trans ?_
          simp

/-- Each slot is filled with its own signature or with nothing, and the first `k` signatures are used. -/
theorem exists_places_of_fillSlots? {k : Nat} {slots : List (Option Bytes)} {items : List Bytes}
    (filled : fillSlots? k slots = some items) :
    ∃ places, List.Forall₂ Fills slots places ∧ places.countP Prod.fst = k ∧
      items = places.map Prod.snd ∧ placedSignatures places = (slots.filterMap id).take k := by
  obtain ⟨places, each, first, folded⟩ := foldl_fillSlot slots k []
  have le : places.countP Prod.fst ≤ k := by
    rw [← length_placedSignatures, first]
    exact List.length_take_le k _
  rw [fillSlots?_eq, folded] at filled
  split at filled
  next none =>
    cases filled
    exact ⟨places, each, Nat.le_antisymm le (Nat.le_of_sub_eq_zero none), by simp, first⟩
  next => cases filled

/-- Each slot is filled with its own signature or with nothing, and `k` of them are filled. -/
theorem fillSlots?_eq_some {k : Nat} {slots : List (Option Bytes)} {items : List Bytes}
    (filled : fillSlots? k slots = some items) :
    ∃ places, List.Forall₂ Fills slots places ∧ places.countP Prod.fst = k ∧
      items = places.map Prod.snd := by
  obtain ⟨places, each, count, shape, _⟩ := exists_places_of_fillSlots? filled
  exact ⟨places, each, count, shape⟩

/-- With enough signatures the slots can be filled. -/
theorem exists_fillSlots? {k : Nat} {slots : List (Option Bytes)}
    (enough : k ≤ slots.countP Option.isSome) : ∃ items, fillSlots? k slots = some items := by
  have missing (left : Nat) (reversed : List Bytes) :
      (slots.foldl fillSlot (left, reversed)).1 = left - slots.countP Option.isSome := by
    clear enough
    induction slots generalizing left reversed with
    | nil => rfl
    | cons slot slots ih =>
      rw [List.foldl_cons]
      cases left with
      | zero => exact (ih 0 _).trans (by simp)
      | succ left =>
        cases slot with
        | none => exact ih _ _
        | some signature => exact (ih left _).trans (by simp)
  rw [fillSlots?_eq, missing, Nat.sub_eq_zero_of_le enough]
  exact ⟨_, rfl⟩

end Choice

namespace Material

variable {κ α β : Type}

/-- What is found was listed. -/
theorem mem_of_lookUp [DecidableEq α] {entries : List (α × β)} {key : α} {value : β}
    (found : lookUp entries key = some value) : (key, value) ∈ entries := by
  obtain ⟨before, after, split, _⟩ := List.lookup_eq_some_iff.mp found
  rw [← List.mem_reverse, split]
  exact List.mem_append_right _ List.mem_cons_self

/-- Listed signatures are genuine where they verify, and so are listed secrets with the digests that they are
for. -/
theorem genuine_listed [PublicKey κ] [DecidableEq κ] {signed : List (κ × Bytes)}
    {secrets : List (Digest × Secret)} (usual : ∀ entry ∈ signed, entry.2 ≠ [] ∧ entry.2.length ≤ 73)
    (opens : ∀ entry ∈ secrets, entry.1.kind.hash entry.2.toList = entry.1.bytes) (leafHash : LeafHash) :
    (firstOf [ofEcdsa signed, ofSecrets secrets]).Genuine
      (.ofSignatures .ecdsa (signed.map fun entry => (PublicKey.pushed .ecdsa entry.1, entry.2))) leafHash := by
  have ecdsa (key : κ) : (firstOf [ofEcdsa signed, ofSecrets secrets]).ecdsa key = lookUp signed key :=
    Option.or_none
  have secret (digest : Digest) :
      (firstOf [ofEcdsa signed, ofSecrets secrets]).secret digest = lookUp secrets digest :=
    Option.or_none
  have listed {key : κ} {signature : Bytes}
      (found : (firstOf [ofEcdsa signed, ofSecrets secrets]).ecdsa key = some signature) :
      (key, signature) ∈ signed :=
    mem_of_lookUp ((ecdsa key).symm.trans found)
  refine ⟨fun key signature found => ?_, fun key signature found => (usual _ (listed found)).2,
    fun digest _ found => opens _ (mem_of_lookUp ((secret digest).symm.trans found)), fun _ => rfl,
    fun _ => rfl⟩
  exact Evaluator.checkSig_ofSignatures.mpr ⟨(usual _ (listed found)).1, List.mem_map_of_mem (listed found)⟩

/-- The signatures by the second and the fourth key of two of three, and the secret. -/
def secondAndFourthWithSecret : Material PointKey :=
  firstOf [ofEcdsa secondAndFourth, ofSecrets [(Typed.digestOfOnes, Typed.secretOfOnes)]]

theorem genuine_secondAndFourthWithSecret (leafHash : LeafHash) :
    secondAndFourthWithSecret.Genuine .verifiesSecondAndFourth leafHash :=
  genuine_listed (by decide) (List.forall_mem_singleton.mpr Typed.hash_secretOfOnes) leafHash

end Material

end LockScript
