import LockScript.Proofs.Candidates
import LockScript.Proofs.Exchange

/-! # Which signatures a multisignature takes

A `multi` or `multi_a` takes `k` of the signatures at hand and leaves the others out. For `multi` the
shortest ones are taken. For `multi_a` the ones of the last keys are, which are the shortest as well if
no signature is longer than that of an earlier key.
-/

namespace LockScript

/-- Some signatures are kept, none of them longer than one that is left out. -/
def KeepsShortest (kept signatures : List Bytes) : Prop :=
  ∃ left, (kept ++ left).Perm signatures ∧ ∀ a ∈ kept, ∀ b ∈ left, a.length ≤ b.length

namespace KeepsShortest

variable {kept signatures : List Bytes}

theorem refl (signatures : List Bytes) : KeepsShortest signatures signatures :=
  ⟨[], .of_eq (List.append_nil signatures), nofun⟩

theorem trans {fewer : List Bytes} (first : KeepsShortest fewer kept)
    (second : KeepsShortest kept signatures) : KeepsShortest fewer signatures := by
  obtain ⟨longest, permutes, longer⟩ := first
  obtain ⟨left, permutes', separated⟩ := second
  refine ⟨longest ++ left, ?_, fun a member b either => ?_⟩
  · rw [← List.append_assoc]
    exact (permutes.append_right left).trans permutes'
  · have own := permutes.subset (List.mem_append_left longest member)
    exact (List.mem_append.mp either).elim (longer a member b) (separated a own b)

theorem dropLongest (signatures : List Bytes) :
    KeepsShortest (LockScript.dropLongest signatures) signatures := by
  let longest := (signatures.map List.length).foldr max 0
  have sublist := dropLongest_sublist signatures
  obtain same | ⟨b, before, after, _, length, shape, erased⟩ :=
    List.exists_or_eq_self_of_eraseP (·.length == longest) signatures.reverse
  · rw [LockScript.dropLongest, same, List.reverse_reverse]
    exact refl signatures
  · refine ⟨[b], ?_, fun a member other single => ?_⟩
    · rw [LockScript.dropLongest, erased, ← List.reverse_reverse signatures, shape, List.reverse_append,
        List.reverse_append, List.reverse_cons, List.append_assoc, List.append_assoc]
      exact List.perm_append_comm.append_left after.reverse
    · obtain rfl := List.mem_singleton.mp single
      rw [beq_iff_eq.mp length]
      exact List.le_max_of_le (List.mem_map_of_mem (sublist.subset member)) le_rfl

theorem keepShortest (k : Nat) (signatures : List Bytes) :
    KeepsShortest (LockScript.keepShortest k signatures) signatures :=
  List.foldlRecOn (motive := (KeepsShortest · signatures)) _ _ (refl signatures)
    fun kept shortest _ _ => (dropLongest kept).trans shortest

theorem of_perm {others : List Bytes} (shortest : KeepsShortest kept signatures)
    (permutes : signatures.Perm others) : KeepsShortest kept others :=
  have ⟨left, whole, separated⟩ := shortest
  ⟨left, whole.trans permutes, separated⟩

/-- If no signature is longer than a later one then the first ones are the shortest. -/
theorem take (sorted : signatures.Pairwise fun a b => a.length ≤ b.length) (k : Nat) :
    KeepsShortest (signatures.take k) signatures := by
  have parts := sorted
  rw [← List.take_append_drop k signatures, List.pairwise_append] at parts
  exact ⟨signatures.drop k, .of_eq (List.take_append_drop k signatures), parts.2.2⟩

end KeepsShortest

section Places

variable {slots : List (Option Bytes)} {places : List (Bool × Bytes)} {k : Nat}

/-- A choice of `k` of the signatures at hand, told by what is in the place of each key: its mark and its
signature if it is taken, and nothing if not. -/
structure SignatureChoice (k : Nat) (slots : List (Option Bytes)) (places : List (Bool × Bytes)) :
    Prop where
  fills : List.Forall₂ Fills slots places
  count : places.countP Prod.fst = k

/-- The signatures in key order, above the element that a `multi` takes in addition. -/
def stackTogether (places : List (Bool × Bytes)) : List Bytes :=
  [] :: placedSignatures places

/-- One element for each place, that of the first key on top. -/
def stackApart (places : List (Bool × Bytes)) : List Bytes :=
  (places.map Prod.snd).reverse

theorem witnessSize_eq_sum (items : List Bytes) : witnessSize items = (items.map elementSize).sum := by
  induction items with
  | nil => rfl
  | cons element items ih => exact congrArg (elementSize element + ·) ih

/-- An element that is left out takes one byte in its place. -/
theorem witnessSize_stackApart (fills : List.Forall₂ Fills slots places) :
    witnessSize (stackApart places) + places.countP Prod.fst =
      witnessSize (placedSignatures places) + slots.length := by
  rw [stackApart, witnessSize_reverse]
  induction fills with
  | nil => rfl
  | @cons slot place slots places fills _ ih =>
    simp only [witnessSize, placedSignatures] at ih
    obtain ⟨mark, element⟩ := place
    obtain ⟨rfl, _⟩ | same := fills
    · simp only [witnessSize, placedSignatures, List.map_cons, List.filter_cons_of_pos, sumOf,
        List.countP_cons_of_pos, List.length_cons]
      omega
    · cases same
      simp only [witnessSize, placedSignatures, List.map_cons, List.filter_cons_of_neg, Bool.false_eq_true,
        not_false_eq_true, sumOf, List.countP_cons_of_neg, List.length_cons,
        show elementSize [] = 1 from rfl]
      omega

/-- What is taken is at hand, in key order. -/
theorem placedSignatures_sublist (fills : List.Forall₂ Fills slots places) :
    (placedSignatures places).Sublist (slots.filterMap id) := by
  induction fills with
  | nil => exact .slnil
  | @cons slot place slots places fills _ ih =>
    obtain ⟨mark, element⟩ := place
    obtain ⟨rfl, rfl⟩ | same := fills
    · exact ih.cons_cons element
    · cases same
      exact ih.trans ((List.sublist_cons_self slot slots).filterMap id)

/-- Signatures at hand, in key order, have places. -/
theorem exists_places_of_sublist {kept : List Bytes} (among : kept.Sublist (slots.filterMap id)) :
    ∃ places, List.Forall₂ Fills slots places ∧ placedSignatures places = kept := by
  induction slots generalizing kept with
  | nil =>
    rw [List.filterMap_nil, List.sublist_nil] at among
    exact ⟨[], .nil, among.symm⟩
  | cons slot slots ih =>
    have skip (rest : kept.Sublist (slots.filterMap id)) :
        ∃ places, List.Forall₂ Fills (slot :: slots) places ∧ placedSignatures places = kept := by
      obtain ⟨places, fills, same⟩ := ih rest
      exact ⟨(false, []) :: places, .cons (.inr rfl) fills, same⟩
    cases slot with
    | none => exact skip among
    | some signature =>
      cases among with
      | cons _ rest => exact skip rest
      | cons_cons _ rest =>
        obtain ⟨places, fills, same⟩ := ih rest
        exact ⟨(true, signature) :: places, .cons (.inl ⟨rfl, rfl⟩) fills, congrArg (signature :: ·) same⟩

theorem elementSize_mono {a b : Bytes} (le : a.length ≤ b.length) : elementSize a ≤ elementSize b := by
  unfold elementSize Bytes.compactSizeLength
  grind

/-- The shortest signatures take the least space. -/
theorem SignatureChoice.shortest_le {kept : List Bytes}
    (shortest : KeepsShortest kept (slots.filterMap id)) (exact : kept.length = k)
    (choice : SignatureChoice k slots places) :
    witnessSize kept ≤ witnessSize (placedSignatures places) := by
  obtain ⟨left, permutes, separated⟩ := shortest
  rw [witnessSize_eq_sum, witnessSize_eq_sum]
  have apart : ∀ a ∈ kept.map elementSize, ∀ b ∈ left.map elementSize, a ≤ b := by
    simp only [List.forall_mem_map]
    exact fun a member b member' => elementSize_mono (separated a member b member')
  refine sum_le_of_separated apart ?_ ?_
  · obtain ⟨chosen, same, among⟩ :=
      (placedSignatures_sublist choice.fills).subperm.trans permutes.symm.subperm
    rw [← List.map_append]
    exact ⟨chosen.map elementSize, same.map elementSize, among.map elementSize⟩
  · rw [List.length_map, List.length_map, length_placedSignatures, choice.count, exact]

end Places

namespace Search

variable {κ : Type} (search : Search κ) (k : Nat) (keys : List κ)

/-- The signatures at hand, key by key. -/
def slots : List (Option Bytes) :=
  keys.map (search.material.signature? search.scheme search.leafHash)

/-- What a multisignature finds is the stack of a choice, and there is one if `k` signatures are at hand. -/
structure FindsChoice (stackOf : List (Bool × Bytes) → List Bytes) (found : Witness) : Prop where
  available : (∃ stack, found = .stack stack) ↔ k ≤ (search.slots keys).countP Option.isSome
  chosen : ∀ stack, found = .stack stack →
    ∃ places, SignatureChoice k (search.slots keys) places ∧ stack = stackOf places

/-- No choice has a smaller stack than what is found. -/
def FindsLeast (stackOf : List (Bool × Bytes) → List Bytes) (found : Witness) : Prop :=
  ∀ stack, found = .stack stack →
    ∀ places, SignatureChoice k (search.slots keys) places → witnessSize stack ≤ witnessSize (stackOf places)

theorem filterMap_slots : (search.slots keys).filterMap id =
    keys.filterMap (search.material.signature? search.scheme search.leafHash) := by
  rw [slots, List.filterMap_map]
  rfl

theorem length_filterMap_slots :
    ((search.slots keys).filterMap id).length = (search.slots keys).countP Option.isSome :=
  List.length_filterMap_eq_countP

theorem multi_sat : (search.multi k keys).sat =
    if (search.slots keys).countP Option.isSome < k then .impossible
    else ⟨.stack ([] :: keepShortest k ((search.slots keys).filterMap id)), true⟩ := by
  rw [← length_filterMap_slots, filterMap_slots]
  rfl

theorem findsChoice_multi :
    search.FindsChoice k keys stackTogether (search.multi k keys).sat.witness := by
  rw [multi_sat]
  split
  next few => exact ⟨⟨nofun, fun enough => absurd few (Nat.not_lt.mpr enough)⟩, nofun⟩
  next enough =>
    rw [Nat.not_lt] at enough
    refine ⟨⟨fun _ => enough, fun _ => ⟨_, rfl⟩⟩, fun stack found => ?_⟩
    obtain ⟨sublist, length⟩ := keepShortest_sublist k ((search.slots keys).filterMap id)
    obtain ⟨places, fills, same⟩ := exists_places_of_sublist sublist
    refine ⟨places, ⟨fills, ?_⟩, (Witness.stack.inj found).symm.trans (congrArg ([] :: ·) same.symm)⟩
    rw [← length_placedSignatures, same, length ((search.length_filterMap_slots keys).symm ▸ enough)]

theorem findsLeast_multi :
    search.FindsLeast k keys stackTogether (search.multi k keys).sat.witness := by
  intro stack found places choice
  rw [multi_sat] at found
  split at found
  next => cases found
  next enough =>
    cases found
    have length := (keepShortest_sublist k ((search.slots keys).filterMap id)).2
    refine Nat.add_le_add_left (choice.shortest_le (.keepShortest k _) (length ?_)) _
    rw [length_filterMap_slots]
    exact Nat.le_of_not_lt enough

/-- A `multi_a` takes the signatures of the last keys. -/
theorem multiA_takesLast {stack : List Bytes} (found : (search.multiA k keys).sat.witness = .stack stack) :
    ∃ places, SignatureChoice k (search.slots keys) places ∧ stack = stackApart places ∧
      (placedSignatures places).reverse = ((search.slots keys).filterMap id).reverse.take k := by
  rw [multiA] at found
  simp only at found
  split at found
  next items filled =>
    obtain rfl := Witness.stack.inj found
    obtain ⟨places, fills, count, shape, first⟩ := exists_places_of_fillSlots? filled
    rw [List.map_reverse, ← List.reverse_reverse places, List.forall₂_reverse_iff] at fills
    refine ⟨places.reverse, ⟨fills, by rw [List.countP_reverse, count]⟩, ?_, ?_⟩
    · rw [stackApart, List.map_reverse, List.reverse_reverse, shape]
    · rw [placedSignatures, List.filter_reverse, List.map_reverse, List.reverse_reverse,
        ← List.filterMap_reverse, slots, ← List.map_reverse]
      exact first
  next => cases found

theorem findsChoice_multiA :
    search.FindsChoice k keys stackApart (search.multiA k keys).sat.witness := by
  refine ⟨⟨fun ⟨stack, found⟩ => ?_, fun enough => ?_⟩, fun stack found => ?_⟩
  · obtain ⟨places, choice, _⟩ := search.multiA_takesLast k keys found
    rw [← length_filterMap_slots, ← choice.count, ← length_placedSignatures]
    exact (placedSignatures_sublist choice.fills).length_le
  · rw [← List.countP_reverse, slots, ← List.map_reverse] at enough
    obtain ⟨items, filled⟩ := exists_fillSlots? enough
    exact ⟨items, by simp only [multiA, filled]⟩
  · obtain ⟨places, choice, shape, _⟩ := search.multiA_takesLast k keys found
    exact ⟨places, choice, shape⟩

/-- The signatures of the last keys are the shortest ones if no signature is longer than that of an earlier
key, or if all are needed. -/
theorem findsLeast_multiA (sorted : k < (search.slots keys).countP Option.isSome →
      ((search.slots keys).filterMap id).Pairwise fun a b => b.length ≤ a.length) :
    search.FindsLeast k keys stackApart (search.multiA k keys).sat.witness := by
  intro stack found places choice
  obtain ⟨last, own, rfl, same⟩ := search.multiA_takesLast k keys found
  have shortest : KeepsShortest (placedSignatures last).reverse ((search.slots keys).filterMap id) := by
    refine KeepsShortest.of_perm ?_ (List.reverse_perm _)
    rw [same]
    by_cases more : k < (search.slots keys).countP Option.isSome
    · exact .take (List.pairwise_reverse.mpr (sorted more)) k
    · rw [List.take_of_length_le]
      · exact .refl _
      · rw [List.length_reverse, length_filterMap_slots]
        exact Nat.le_of_not_lt more
  have exact : (placedSignatures last).reverse.length = k := by
    rw [List.length_reverse, length_placedSignatures, own.count]
  have le := choice.shortest_le shortest exact
  have size := witnessSize_stackApart own.fills
  have size' := witnessSize_stackApart choice.fills
  rw [own.count] at size
  rw [choice.count] at size'
  rw [witnessSize_reverse] at le
  omega

/-- What is found for a multisignature is the stack of a choice wherever enough signatures are at hand. For
`multi` it is the smallest one. For `multi_a` it is if no signature is longer than that of an earlier key,
or if all are needed. -/
theorem multisignatures_exact [PublicKey κ] :
    (∀ ks : Threshold κ multiCap,
      let found := (search.ofLeaf (.multi ks : Leaf κ Digest)).sat.witness
      search.FindsChoice ks.k ks.items stackTogether found ∧
        search.FindsLeast ks.k ks.items stackTogether found) ∧
    ∀ ks : Threshold κ multiACap,
      let found := (search.ofLeaf (.multiA ks : Leaf κ Digest)).sat.witness
      search.FindsChoice ks.k ks.items stackApart found ∧
        ((ks.k < (search.slots ks.items).countP Option.isSome →
            ((search.slots ks.items).filterMap id).Pairwise fun a b => b.length ≤ a.length) →
          search.FindsLeast ks.k ks.items stackApart found) :=
  ⟨fun ks => ⟨search.findsChoice_multi ks.k ks.items, search.findsLeast_multi ks.k ks.items⟩,
    fun ks => ⟨search.findsChoice_multiA ks.k ks.items, search.findsLeast_multiA ks.k ks.items⟩⟩

end Search

/-- Schnorr signatures by key, for whichever leaf is asked. -/
def Material.ofKeys (entries : List (XOnlyKey × Bytes)) : Material XOnlyKey :=
  { none with schnorr := fun key _ => lookUp entries key }

/-- One of two keys. -/
def Typed.oneOfTwo : Threshold XOnlyKey multiACap where
  k := 1
  items := [.ofByte 1, .ofByte 2]
  k_pos := Nat.one_pos
  k_le := Nat.le_succ 1
  capped := by
    rintro most ⟨⟩
    exact Nat.le_of_lt_succ (by decide : 2 < 125001)

namespace Search

/-- The signature of the second key is shorter and is taken. -/
theorem multisignatures_exact_shorterLast : ∃ (search : Search XOnlyKey) (stack : List Bytes),
    let keys : List XOnlyKey := Typed.oneOfTwo.items
    1 < (search.slots keys).countP Option.isSome ∧
      ((search.slots keys).filterMap id).Pairwise (fun a b => b.length ≤ a.length) ∧
      (search.ofLeaf (.multiA Typed.oneOfTwo : Leaf XOnlyKey Digest)).sat.witness = .stack stack ∧
      witnessSize stack = 66 ∧
      ∀ places, SignatureChoice 1 (search.slots keys) places → 66 ≤ witnessSize (stackApart places) := by
  let material := Material.ofKeys [(.ofByte 1, List.replicate 64 0x11 ++ [1]), (.ofByte 2, List.replicate 64 0x22)]
  let search : Search XOnlyKey := ⟨.schnorr, material, .zero, true, .nonMalleable⟩
  let stack : List Bytes := [List.replicate 64 0x22, []]
  have sorted : ((search.slots Typed.oneOfTwo.items).filterMap id).Pairwise fun a b => b.length ≤ a.length := by
    decide +kernel
  have found : (search.ofLeaf (.multiA Typed.oneOfTwo : Leaf XOnlyKey Digest)).sat.witness = .stack stack := by
    decide +kernel
  have least := (search.multisignatures_exact.2 Typed.oneOfTwo).2 (fun _ => sorted) stack found
  exact ⟨search, stack, by decide +kernel, sorted, found, by decide +kernel, least⟩

end Search

/-- Of two signatures the longer one is taken, since its key comes last. -/
theorem Typed.exists_longer_signature : ∃ (t : Typed XOnlyKey Digest) (material : Material XOnlyKey)
    (witness : List Bytes) (places : List (Bool × Bytes)), Validated .tapscript t ∧
      t = ofFragment .tapscript (.leaf (.multiA oneOfTwo)) ∧
      t.satisfy .tapscript .nonMalleable material = .ok witness ∧
      SignatureChoice oneOfTwo.k ((t.search .tapscript .nonMalleable material).slots oneOfTwo.items) places ∧
      witnessSize (stackApart places) < witnessSize witness := by
  let t : Typed XOnlyKey Digest := ofFragment .tapscript (.leaf (.multiA oneOfTwo))
  let material := Material.ofKeys [(.ofByte 1, List.replicate 64 0x11), (.ofByte 2, List.replicate 64 0x22 ++ [1])]
  have valid : Validated .tapscript t := validated_ofFragment (by decide +kernel) nofun
  have found : t.satisfy .tapscript .nonMalleable material = .ok [List.replicate 64 0x22 ++ [1], []] := by
    decide +kernel
  refine ⟨t, material, _, [(true, List.replicate 64 0x11), (false, [])], valid, rfl, found, ⟨?_, rfl⟩, by decide⟩
  exact .cons (.inl ⟨rfl, by decide +kernel⟩) (.cons (.inr rfl) .nil)

end LockScript
