import LockScript.Proofs.FreeChoice

/-! # Completeness of the search that avoids malleability

A witness that third parties cannot alter is harder to find than any witness, and for most conditions
there are fewer of them. Where every path needs a signature, nothing is malleable and every secret is
known, the two searches agree: wherever a choice is left, what is not taken needs a signature, so the
cautious search never has to give up.

The induction compares the two searches fragment by fragment. Besides, it carries that nothing is
missing which others may have, and that a safe fragment is not satisfied without a signature.
-/

namespace LockScript

namespace Witness

variable {a b : Witness}

theorem below_eq_impossible : a.below b = .impossible ↔ a = .impossible ∨ b = .impossible := by
  cases a <;> cases b <;> simp [below]

/-- Unless it waits for others, a search that is not hopeless has found something. -/
theorem exists_eq_stack_iff (settled : a ≠ .unavailable) :
    (∃ items, a = .stack items) ↔ ¬a = .impossible := by
  cases a <;> simp_all

theorem below_ne_unavailable (lower : a ≠ .unavailable) (upper : b ≠ .unavailable) :
    a.below b ≠ .unavailable := by
  cases a <;> cases b <;> simp_all [below]

end Witness

/-- What the search that avoids malleability finds and what the other one finds for a fragment: both
find something or neither does, nothing waits for others, and a safe fragment needs a signature. -/
structure Satisfaction.Matches (cautious : Satisfaction) (safe : Bool) (liberal : Satisfaction) :
    Prop where
  settled : cautious.witness ≠ .unavailable
  settled' : liberal.witness ≠ .unavailable
  impossible_iff : cautious.witness = .impossible ↔ liberal.witness = .impossible
  signed : safe = true → cautious.witness ≠ .impossible → cautious.hasSignature = true

namespace Satisfaction.Matches

variable {a a' b b' : Satisfaction} {safe safe' : Bool}

/-- What takes no choice is the same in both searches. -/
theorem refl (settled : a.witness ≠ .unavailable)
    (signed : safe = true → a.witness ≠ .impossible → a.hasSignature = true) : a.Matches safe a :=
  ⟨settled, settled, Iff.rfl, signed⟩

theorem stack (items items' : List Bytes) (signed signed' : Bool) :
    Matches ⟨.stack items, signed⟩ false ⟨.stack items', signed'⟩ :=
  ⟨nofun, nofun, by simp, of_false_eq_true⟩

theorem below (lower : a.Matches safe a') (upper : b.Matches safe' b') :
    (a.below b).Matches (safe || safe') (a'.below b') where
  settled := Witness.below_ne_unavailable lower.settled upper.settled
  settled' := Witness.below_ne_unavailable lower.settled' upper.settled'
  impossible_iff := by
    simp only [Satisfaction.below, Witness.below_eq_impossible, lower.impossible_iff,
      upper.impossible_iff]
  signed := by
    intro either possible
    simp only [Satisfaction.below, ne_eq, Witness.below_eq_impossible, not_or] at possible
    rw [Satisfaction.below, Bool.or_eq_true]
    rcases Bool.or_eq_true .. ▸ either with safe | safe
    · exact .inl (lower.signed safe possible.1)
    · exact .inr (upper.signed safe possible.2)

theorem select (found : a.Matches safe a') (items : List Bytes) :
    (a.select (.stack items)).Matches safe (a'.select (.stack items)) where
  settled := Witness.below_ne_unavailable found.settled nofun
  settled' := Witness.below_ne_unavailable found.settled' nofun
  impossible_iff := by
    simp only [Satisfaction.select, Witness.below_eq_impossible, found.impossible_iff]
  signed isSafe possible := found.signed isSafe fun none =>
    possible (Witness.below_eq_impossible.mpr (.inl none))

private theorem choose_liberal (settled : a.witness ≠ .unavailable) (settled' : b.witness ≠ .unavailable) :
    (choose .malleable a b).witness ≠ .unavailable ∧
      ((choose .malleable a b).witness = .impossible ↔
        a.witness = .impossible ∧ b.witness = .impossible) := by
  obtain ⟨witness, signed⟩ := a
  obtain ⟨witness', signed'⟩ := b
  cases witness with
  | unavailable => exact absurd rfl settled
  | impossible => exact ⟨settled', by simp [Satisfaction.choose, cheaper]⟩
  | stack items =>
    cases witness' with
    | unavailable => exact absurd rfl settled'
    | impossible => exact ⟨settled, by simp [Satisfaction.choose, cheaper]⟩
    | stack items' =>
      obtain ⟨stack, same⟩ := cheaper_stack items items'
      simp [Satisfaction.choose, cheaper, same]

/-- Of two alternatives that both need no signature the cautious search takes neither; here one does. -/
private theorem choose_cautious (settled : a.witness ≠ .unavailable) (settled' : b.witness ≠ .unavailable)
    (signed : a.witness ≠ .impossible → b.witness ≠ .impossible →
      a.hasSignature = true ∨ b.hasSignature = true) :
    (choose .nonMalleable a b).witness ≠ .unavailable ∧
      ((choose .nonMalleable a b).witness = .impossible ↔
        a.witness = .impossible ∧ b.witness = .impossible) := by
  simp only [Satisfaction.choose, cheaperNonMalleable]
  split
  next none => simp [none, settled']
  next possible =>
  split
  next none => simp [none, settled, possible]
  next possible' =>
  split
  next unsigned unsigned' =>
    rcases signed possible possible' with given | given
    · cases unsigned.symm.trans given
    · cases unsigned'.symm.trans given
  · simp [settled, possible]
  · simp [settled', possible']
  · rcases Witness.cheaper_eq a.witness b.witness with same | same <;> simp_all

/-- If one of two alternatives is safe, then the cautious search takes one whenever the other does. -/
theorem choose (first : a.Matches safe a') (second : b.Matches safe' b')
    (either : safe = true ∨ safe' = true) :
    (choose .nonMalleable a b).Matches (safe && safe') (choose .malleable a' b') := by
  obtain ⟨settled, cautious⟩ := choose_cautious first.settled second.settled fun possible possible' =>
    either.imp (first.signed · possible) (second.signed · possible')
  obtain ⟨settled', liberal⟩ := choose_liberal first.settled' second.settled'
  refine ⟨settled, settled', ?_, fun both possible => ?_⟩
  · rw [cautious, liberal, first.impossible_iff, second.impossible_iff]
  · obtain ⟨isSafe, isSafe'⟩ := Bool.and_eq_true_iff.mp both
    rw [Ne, cautious] at possible
    simp only [Satisfaction.choose, cheaperNonMalleable]
    split
    next none => exact second.signed isSafe' fun none' => possible ⟨none, none'⟩
    next given =>
    split
    next none => exact first.signed isSafe given
    next given' => simp [first.signed isSafe given, second.signed isSafe' given']

end Satisfaction.Matches

namespace Outcomes

variable {items : List Outcomes} {chosen order : List Nat} {k : Nat} {o : Outcomes}

theorem growth_ne_missing (settled : o.sat.witness ≠ .unavailable) :
    o.growth ≠ .missing ↔ o.sat.witness ≠ .impossible := by
  unfold growth
  cases sat : o.sat.witness <;> cases dissat : o.dissat.witness <;> simp_all

/-- Children that can be satisfied come first. -/
theorem byGrowth_pairwise_possible (settled : ∀ o ∈ items, o.sat.witness ≠ .unavailable) :
    (byGrowth items).Pairwise fun i j =>
      items[j]?.any (·.sat.witness != .impossible) = true →
        items[i]?.any (·.sat.witness != .impossible) = true := by
  refine (byGrowth_sorted items).imp ?_
  rintro i j ⟨x, y, foundX, foundY, before⟩ possible
  rw [foundY, Option.any_some, bne_iff_ne,
    ← growth_ne_missing (settled y (List.mem_of_getElem? foundY))] at possible
  rw [foundX, Option.any_some, bne_iff_ne,
    ← growth_ne_missing (settled x (List.mem_of_getElem? foundX))]
  intro missing
  rw [missing] at before
  cases other : y.growth with
  | missing => exact possible other
  | forced | bytes difference =>
    rw [other] at before
    cases before

/-- What is put together is settled if its parts are, and impossible if a part is. -/
private theorem foldl_below (parts : List Satisfaction) (upper : Witness)
    (settled : upper ≠ .unavailable) (below : ∀ part ∈ parts, part.witness ≠ .unavailable) :
    let whole := parts.foldl (fun upper part => part.witness.below upper) upper
    whole ≠ .unavailable ∧
      (whole = .impossible ↔ upper = .impossible ∨ ∃ part ∈ parts, part.witness = .impossible) := by
  induction parts generalizing upper with
  | nil => simpa using settled
  | cons part parts ih =>
    obtain ⟨first, rest⟩ := List.forall_mem_cons.mp below
    obtain ⟨whole, impossible⟩ := ih _ (Witness.below_ne_unavailable first settled) rest
    refine ⟨whole, impossible.trans ?_⟩
    simp only [Witness.below_eq_impossible, List.mem_cons, exists_eq_or_imp]
    tauto

/-- If all children can be dissatisfied, then what is put together is impossible only through a
child that is to be satisfied. -/
theorem combine_settled (dissats : ∀ o ∈ items, ∃ stack, o.dissat.witness = .stack stack)
    (settled : ∀ o ∈ items, o.sat.witness ≠ .unavailable) (chosen : List Nat) :
    (combine chosen items).witness ≠ .unavailable ∧ ((combine chosen items).witness = .impossible ↔
      ∃ i ∈ chosen, ∃ o, items[i]? = some o ∧ o.sat.witness = .impossible) := by
  obtain ⟨parts, combined, among⟩ := exists_parts chosen items
  have below : ∀ part ∈ parts, part.witness ≠ .unavailable := by
    intro part member
    obtain ⟨i, o, located, rfl⟩ := (among part).mp member
    have member := List.mem_of_getElem? located
    split
    · exact settled o member
    · obtain ⟨stack, found⟩ := dissats o member
      simp [found]
  obtain ⟨whole, impossible⟩ := foldl_below parts .empty (by decide) below
  rw [combined]
  refine ⟨whole, impossible.trans ?_⟩
  constructor
  · rintro (none | ⟨part, member, none⟩)
    · cases none
    · obtain ⟨i, o, located, rfl⟩ := (among part).mp member
      split at none
      next taken => exact ⟨i, taken, o, located, none⟩
      next =>
        obtain ⟨stack, found⟩ := dissats o (List.mem_of_getElem? located)
        cases found.symm.trans none
  · rintro ⟨i, taken, o, located, none⟩
    exact .inr ⟨o.sat, (among _).mpr ⟨i, o, located, if_pos taken⟩, none⟩

/-- Taking the first `k` of an order that starts with the children that can be satisfied succeeds
exactly if there are `k` of them. -/
private theorem combine_take_settled (permutes : order.Perm (List.range items.length))
    (ordered : order.Pairwise fun i j => items[j]?.any (·.sat.witness != .impossible) = true →
      items[i]?.any (·.sat.witness != .impossible) = true)
    (few : k ≤ items.length) (dissats : ∀ o ∈ items, ∃ stack, o.dissat.witness = .stack stack)
    (settled : ∀ o ∈ items, o.sat.witness ≠ .unavailable) :
    (combine (order.take k) items).witness ≠ .unavailable ∧
      ((combine (order.take k) items).witness = .impossible ↔
        items.countP (·.sat.witness != .impossible) < k) := by
  obtain ⟨whole, impossible⟩ := combine_settled dissats settled (order.take k)
  have length : order.length = items.length := by simpa using permutes.length_eq
  refine ⟨whole, impossible.trans ?_⟩
  rw [← countP_positions permutes]
  constructor
  · rintro ⟨i, taken, o, located, none⟩
    by_contra enough
    have possible := forall_mem_take ordered (Nat.le_of_not_lt enough) taken
    simp [located, none] at possible
  · intro fewer
    by_contra none
    have all : ∀ i ∈ order.take k, items[i]?.any (·.sat.witness != .impossible) = true := by
      intro i taken
      have inside := List.mem_range.mp (permutes.subset (List.mem_of_mem_take taken))
      have located := List.getElem?_eq_getElem inside
      rw [located, Option.any_some, bne_iff_ne]
      exact fun impossible => none ⟨i, taken, _, located, impossible⟩
    have counted := (List.take_sublist k order).countP_le
      (p := fun i => items[i]?.any (·.sat.witness != .impossible))
    rw [List.countP_eq_length.mpr all, List.length_take] at counted
    omega

private theorem thresholdMalleable_settled (positive : 0 < k) (few : k ≤ items.length)
    (dissats : ∀ o ∈ items, ∃ stack, o.dissat.witness = .stack stack)
    (settled : ∀ o ∈ items, o.sat.witness ≠ .unavailable) :
    (threshold .malleable k items).witness ≠ .unavailable ∧
      ((threshold .malleable k items).witness = .impossible ↔
        items.countP (·.sat.witness != .impossible) < k) := by
  rw [threshold, thresholdMalleable, if_neg (by omega)]
  exact combine_take_settled (byGrowth_perm items) (byGrowth_pairwise_possible settled) few dissats settled

/-- If those with a property come first, then nothing that has it stands behind as many others as
have it. -/
private theorem lt_countP_of_pairwise {order : List Nat} {p : Nat → Bool}
    (ordered : order.Pairwise fun i j => p j = true → p i = true) {place : Nat}
    (inside : place < order.length) (holds : p order[place] = true) : place < order.countP p := by
  have all : ∀ i ∈ order.take (place + 1), p i = true := by
    intro i taken
    obtain ⟨before, within, rfl⟩ := List.mem_take_iff_getElem.mp taken
    rcases Nat.lt_or_ge before place with earlier | later
    · exact List.pairwise_iff_getElem.mp ordered before place _ inside earlier holds
    · obtain rfl : before = place := by omega
      exact holds
  have counted := (List.take_sublist (place + 1) order).countP_le (p := p)
  rw [List.countP_eq_length.mpr all, List.length_take] at counted
  omega

/-- A threshold is impossible if fewer than `k` of its children are possible. -/
theorem thresholdNonMalleable_impossible (positive : 0 < k) (few : k ≤ items.length)
    (fewer : items.countP (·.sat.witness != .impossible) < k) :
    threshold .nonMalleable k items = .impossible := by
  have length : (bySignature items).length = items.length := by
    simpa using (bySignature_perm items).length_eq
  have inside : k - 1 < (bySignature items).length := by omega
  have last : (((bySignature items)[k - 1]?.bind (items[·]?)).any
      (·.sat.witness == .impossible)) = true := by
    have within := List.mem_range.mp ((bySignature_perm items).subset (List.getElem_mem inside))
    rw [List.getElem?_eq_getElem inside, Option.bind_some, List.getElem?_eq_getElem within,
      Option.any_some]
    by_contra possible
    have many := lt_countP_of_pairwise (bySignature_pairwise_possible items) inside (by
      rw [List.getElem?_eq_getElem within, Option.any_some]
      simpa using possible)
    rw [countP_positions (bySignature_perm items) fun o => o.sat.witness != .impossible] at many
    omega
  rw [threshold, thresholdNonMalleable, if_neg (by omega)]
  simp only [last, if_true]

/-- If enough children are possible then the last one that is taken is no reason to give up. -/
private theorem last_of_enough (positive : 0 < k) (few : k ≤ items.length)
    (enough : k ≤ items.countP (·.sat.witness != .impossible)) :
    (((bySignature items)[k - 1]?.bind (items[·]?)).any (·.sat.witness == .impossible)) = false := by
  rw [← countP_positions (bySignature_perm items)] at enough
  exact last_possible positive few fun _ taken =>
    forall_mem_take (bySignature_pairwise_possible items) enough taken

/-- The cautious search gives up on a threshold if more than `k` of its children are free. -/
theorem thresholdNonMalleable_unavailable (positive : 0 < k) (few : k ≤ items.length)
    (enough : k ≤ items.countP (·.sat.witness != .impossible))
    (more : k < items.countP (·.sat.isFree)) :
    threshold .nonMalleable k items = ⟨.unavailable, false⟩ := by
  rw [← countP_freeAt] at more
  have inside : k < (bySignature items).length := Nat.lt_of_lt_of_le more List.countP_le_length
  have next : freeAt items (bySignature items)[k] = true :=
    forall_mem_take (bySignature_pairwise items) more
      (List.mem_take_iff_getElem.mpr ⟨k, by omega, rfl⟩)
  have bound : (((bySignature items)[k]?.bind (items[·]?)).any
      fun o => !o.sat.hasSignature && o.sat.witness != .impossible) = true := by
    rw [List.getElem?_eq_getElem inside, Option.bind_some]
    exact next
  rw [threshold, thresholdNonMalleable, if_neg (by omega)]
  simp only [last_of_enough positive few enough, bound, Bool.false_eq_true, if_false, if_true]

/-- If enough children are possible and no more than `k` are free then the first `k` are taken. -/
theorem thresholdNonMalleable_eq (positive : 0 < k) (few : k ≤ items.length)
    (forced : items.countP (·.sat.isFree) ≤ k)
    (enough : k ≤ items.countP (·.sat.witness != .impossible)) :
    threshold .nonMalleable k items = combine ((bySignature items).take k) items := by
  rw [threshold, thresholdNonMalleable, if_neg (by omega)]
  have bound : (((bySignature items)[k]?.bind (items[·]?)).any
      fun o => !o.sat.hasSignature && o.sat.witness != .impossible) = false := by
    by_contra free
    rw [Bool.not_eq_false] at free
    by_cases next : k < (bySignature items).length
    · rw [List.getElem?_eq_getElem next, Option.bind_some] at free
      have many := lt_countP_of_pairwise (bySignature_pairwise items) next free
      rw [countP_freeAt] at many
      omega
    · simp [List.getElem?_eq_none (Nat.le_of_not_lt next)] at free
  simp only [last_of_enough positive few enough, bound, Bool.false_eq_true, if_false]

private theorem thresholdNonMalleable_settled (positive : 0 < k) (few : k ≤ items.length)
    (forced : items.countP (·.sat.isFree) ≤ k)
    (dissats : ∀ o ∈ items, ∃ stack, o.dissat.witness = .stack stack)
    (settled : ∀ o ∈ items, o.sat.witness ≠ .unavailable) :
    (threshold .nonMalleable k items).witness ≠ .unavailable ∧
      ((threshold .nonMalleable k items).witness = .impossible ↔
        items.countP (·.sat.witness != .impossible) < k) := by
  have taken := combine_take_settled (bySignature_perm items) (bySignature_pairwise_possible items) few
    dissats settled
  rcases Nat.lt_or_ge (items.countP (·.sat.witness != .impossible)) k with fewer | enough
  · rw [thresholdNonMalleable_impossible positive few fewer]
    exact ⟨by decide, fun _ => fewer, fun _ => rfl⟩
  · rw [thresholdNonMalleable_eq positive few forced enough]
    exact taken

theorem hasSignature_combine {i : Nat} (taken : i ∈ chosen) (located : items[i]? = some o)
    (signed : o.sat.hasSignature = true) : (combine chosen items).hasSignature = true := by
  refine List.any_eq_true.mpr ⟨o.sat, List.mem_map.mpr ⟨(o, i), ?_, ?_⟩, signed⟩
  · exact List.mem_zipIdx_iff_getElem?.mpr located
  · simp [taken]

variable {α : Type} {xs : List α} {cautious liberal : α → Outcomes} {safe : α → Bool}

/-- If all but `k` children of a threshold are safe then no more than `k` are free, and if more are
then one of those that are taken is safe. -/
theorem matches_threshold (positive : 0 < k) (few : k ≤ xs.length)
    (below : ∀ x ∈ xs, (cautious x).sat.Matches (safe x) (liberal x).sat)
    (dissats : ∀ x ∈ xs, ∃ stack, (cautious x).dissat.witness = .stack stack)
    (dissats' : ∀ x ∈ xs, ∃ stack, (liberal x).dissat.witness = .stack stack)
    (many : xs.length - k ≤ xs.countP safe) :
    (threshold .nonMalleable k (xs.map cautious)).Matches (decide (xs.length - k < xs.countP safe))
      (threshold .malleable k (xs.map liberal)) := by
  have settled : ∀ o ∈ xs.map cautious, o.sat.witness ≠ .unavailable :=
    List.forall_mem_map.mpr fun x member => (below x member).settled
  have settled' : ∀ o ∈ xs.map liberal, o.sat.witness ≠ .unavailable :=
    List.forall_mem_map.mpr fun x member => (below x member).settled'
  have forced : (xs.map cautious).countP (·.sat.isFree) ≤ k := by
    rw [List.countP_map]
    by_contra exceeded
    obtain ⟨x, member, free, isSafe⟩ := exists_of_length_lt_countP_add
      (show xs.length < xs.countP ((·.sat.isFree) ∘ cautious) + xs.countP safe by omega)
    obtain ⟨unsigned, possible⟩ := Satisfaction.isFree_iff.mp free
    exact Bool.false_ne_true (unsigned.symm.trans ((below x member).signed isSafe possible))
  have same : (xs.map cautious).countP (·.sat.witness != .impossible) =
      (xs.map liberal).countP (·.sat.witness != .impossible) := by
    rw [List.countP_map, List.countP_map]
    refine List.countP_congr fun x member => ?_
    simp only [Function.comp_apply, bne_iff_ne, ne_eq, (below x member).impossible_iff]
  obtain ⟨first, impossible⟩ := thresholdNonMalleable_settled positive (by simpa using few) forced
    (List.forall_mem_map.mpr dissats) settled
  obtain ⟨second, impossible'⟩ := thresholdMalleable_settled positive (by simpa using few)
    (List.forall_mem_map.mpr dissats') settled'
  refine ⟨first, second, by rw [impossible, impossible', same], fun more possible => ?_⟩
  rw [decide_eq_true_eq] at more
  rw [Ne, impossible, Nat.not_lt] at possible
  rw [thresholdNonMalleable_eq positive (by simpa using few) forced possible]
  -- The children that are left out are too few to be all the safe ones.
  have permutes : (bySignature (xs.map cautious)).Perm (List.range xs.length) := by
    simpa using bySignature_perm (xs.map cautious)
  have counted := countP_positions permutes safe
  rw [← List.take_append_drop k (bySignature _), List.countP_append] at counted
  have left := ((bySignature (xs.map cautious)).drop k).countP_le_length
    (p := fun i => xs[i]?.any safe)
  rw [List.length_drop, permutes.length_eq, List.length_range] at left
  obtain ⟨i, taken, isSafe⟩ := List.countP_pos_iff.mp (show 0 <
    ((bySignature (xs.map cautious)).take k).countP (fun i => xs[i]?.any safe) by omega)
  obtain ⟨x, located, isSafe⟩ := (Option.any_eq_true ..).mp isSafe
  have located' : (xs.map cautious)[i]? = some (cautious x) := by simp [located]
  have chosen := forall_mem_take (bySignature_pairwise_possible _)
    ((countP_positions (bySignature_perm _) _).symm ▸ possible) taken
  rw [located', Option.any_some, bne_iff_ne] at chosen
  exact hasSignature_combine taken located' ((below x (List.mem_of_getElem? located)).signed isSafe chosen)

end Outcomes

/-- The secret of every hashlock is at hand. -/
def Condition.Revealed {κ α : Type} (material : Material κ) : Condition κ Digest α → Prop :=
  All fun
    | .leaf (.digest d) => (material.secret d).isSome = true
    | _ => True

namespace Malleability

variable {x y z : Malleability}

/-- Where there is a choice, one of the alternatives needs a signature. -/
theorem safe_of_nonMalleable_pair {op : Connective} (nonMalleable : (pair op x y).nonMalleable = true)
    (choice : op ∈ [.orB, .orD, .orC, .orI]) : x.safe = true ∨ y.safe = true := by
  cases op <;> simp_all [pair, orB, orD, orC, orI]

theorem safe_of_nonMalleable_andOr (nonMalleable : (andOr x y z).nonMalleable = true) :
    (x.safe = true ∨ y.safe = true) ∨ z.safe = true := by
  simp_all [andOr]

theorem safe_of_nonMalleable_threshold {k : Nat} {items : List Malleability}
    (nonMalleable : (threshold k items).nonMalleable = true) :
    items.length - k ≤ items.countP (·.safe) := by
  simp_all [threshold]

end Malleability

namespace Search

variable {κ : Type} [PublicKey κ] (search : Search κ)

/-- The search for the same witness by another policy. -/
def following (policy : Policy) : Search κ :=
  { search with policy }

variable {search} {context : Context} {note : Attributes} {l : Leaf κ Digest}

/-- A leaf has no choice. Nothing is missing at it that others may have, and it is safe only if it
takes a signature. -/
private theorem matches_leaf (rootIsSafe : search.rootIsSafe = true)
    (revealed : (Condition.leaf note l : Typed κ Digest).Revealed search.material) :
    ((search.following .nonMalleable).ofLeaf l).sat.Matches (FragmentType.ofLeaf l).malleability.safe
      ((search.following .malleable).ofLeaf l).sat := by
  have same : (search.following .nonMalleable).ofLeaf l = (search.following .malleable).ofLeaf l := by
    cases l <;> rfl
  rw [same]
  have impossible : Witness.impossible ≠ .unavailable := by decide
  have stack (items : List Bytes) : Witness.stack items ≠ .unavailable := by simp
  have signature (key : κ) : (search.following .malleable).signature key ≠ .unavailable := by
    unfold Search.signature
    split
    · exact stack _
    · exact impossible
  have lock (met : Bool) : ((search.following .malleable).lock met).sat.witness ≠ .unavailable := by
    change (if met then Witness.empty else if search.rootIsSafe then .impossible else .unavailable) ≠ _
    rw [rootIsSafe]
    cases met <;> decide
  cases l with
  | one => exact .refl (stack _) of_false_eq_true
  | zero => exact .refl impossible fun _ possible => absurd rfl possible
  | key k => exact .refl (signature k) fun _ _ => rfl
  | keyHash k => exact .refl (Witness.below_ne_unavailable (signature k) (stack _)) fun _ _ => rfl
  | after lock' => exact .refl (lock _) of_false_eq_true
  | older lock' => exact .refl (lock _) of_false_eq_true
  | digest d =>
    rw [Condition.Revealed, Condition.all_leaf] at revealed
    obtain ⟨secret, known⟩ := Option.isSome_iff_exists.mp revealed
    refine .refl ?_ of_false_eq_true
    simp only [Search.ofLeaf, Search.secret]
    split
    · exact stack _
    next unknown => cases known.symm.trans unknown
  | multi ks =>
    simp only [Search.ofLeaf, Search.multi]
    split
    · exact .refl impossible fun _ possible => absurd rfl possible
    · exact .refl (stack _) fun _ _ => rfl
  | multiA ks =>
    simp only [Search.ofLeaf, Search.multiA]
    split
    · exact .refl (stack _) fun _ _ => rfl
    · exact .refl impossible fun _ possible => absurd rfl possible

/-- A unique dissatisfaction is found by both searches, and takes no signature. -/
private theorem matches_dissat (search : Search κ) {t : Typed κ Digest} (valid : Typed.Validated context t)
    (unique : t.type.malleability.dissatisfaction = .unique) :
    ((search.following .nonMalleable).outcomes t).dissat.Matches false
      ((search.following .malleable).outcomes t).dissat := by
  obtain ⟨items, found⟩ := valid.dissat_eq (valid.coherent.1 unique)
  obtain ⟨items', found'⟩ := valid.dissat_eq (valid.coherent.1 unique)
  rw [found, found']
  exact .stack ..

/-- The searches agree on every fragment that is not malleable. -/
theorem matches_outcomes (search : Search κ) (rootIsSafe : search.rootIsSafe = true)
    {t : Typed κ Digest}
    (valid : Typed.Validated context t) (nonMalleable : t.type.malleability.nonMalleable = true)
    (revealed : t.Revealed search.material) :
    ((search.following .nonMalleable).outcomes t).sat.Matches t.type.malleability.safe
      ((search.following .malleable).outcomes t).sat := by
  induction t using Typed.induct with
  | leaf note l =>
    change Satisfaction.Matches _ note.type.malleability.safe _
    rw [outcomes_leaf, outcomes_leaf, valid.malleability_leaf]
    exact matches_leaf rootIsSafe revealed
  | wrap note w x ih =>
    change note.type.malleability.nonMalleable = true at nonMalleable
    change Satisfaction.Matches _ note.type.malleability.safe _
    rw [valid.malleability_wrap] at nonMalleable ⊢
    rw [Malleability.nonMalleable_wrap] at nonMalleable
    rw [outcomes_wrap, outcomes_wrap]
    have below := ih valid.wrap.1 nonMalleable ((Condition.all_wrap ..).mp revealed).2
    cases w with
    | alt | swap | check | zeroNotEqual | verify | nonzero => exact below
    | dupIf => exact below.select [[1]]
  | pair note op x y ihX ihY =>
    obtain ⟨validX, validY, _⟩ := valid.pair
    obtain ⟨_, revealedX, revealedY⟩ := (Condition.all_pair ..).mp revealed
    change note.type.malleability.nonMalleable = true at nonMalleable
    change Satisfaction.Matches _ note.type.malleability.safe _
    rw [valid.malleability_pair] at nonMalleable ⊢
    rw [outcomes_pair, outcomes_pair]
    obtain ⟨nonMalleableX, nonMalleableY, uniqueX, uniqueY⟩ :=
      Malleability.nonMalleable_pair nonMalleable
    have satX := ihX validX nonMalleableX revealedX
    have satY := ihY validY nonMalleableY revealedY
    have noX (choice : op ∈ [.orB, .orD, .orC]) :=
      matches_dissat search validX (uniqueX choice)
    have one := Malleability.safe_of_nonMalleable_pair nonMalleable
    cases op with
    | andV | andB =>
      have both := satY.below satX
      rwa [Bool.or_comm] at both
    | orB =>
      have left := satY.below (noX (by simp))
      have right := (matches_dissat search validY (uniqueY rfl)).below satX
      rw [Bool.or_false] at left
      rw [Bool.false_or] at right
      have chosen := left.choose right (one (by simp)).symm
      rwa [Bool.and_comm] at chosen
    | orD | orC =>
      have right := satY.below (noX (by simp))
      rw [Bool.or_false] at right
      exact satX.choose right (one (by simp))
    | orI => exact (satX.select [[1]]).choose (satY.select [[]]) (one (by simp))
  | andOr note x y z ihX ihY ihZ =>
    obtain ⟨validX, validY, validZ, _⟩ := valid.andOr
    obtain ⟨_, revealedX, revealedY, revealedZ⟩ := (Condition.all_andOr ..).mp revealed
    change note.type.malleability.nonMalleable = true at nonMalleable
    change Satisfaction.Matches _ note.type.malleability.safe _
    rw [valid.malleability_andOr] at nonMalleable ⊢
    rw [outcomes_andOr, outcomes_andOr]
    obtain ⟨⟨nonMalleableX, uniqueX⟩, nonMalleableY, nonMalleableZ⟩ :=
      Malleability.nonMalleable_andOr nonMalleable
    have left := (ihY validY nonMalleableY revealedY).below (ihX validX nonMalleableX revealedX)
    have right := (ihZ validZ nonMalleableZ revealedZ).below
      (matches_dissat search validX uniqueX)
    rw [Bool.or_comm] at left
    rw [Bool.or_false] at right
    exact left.choose right
      ((Malleability.safe_of_nonMalleable_andOr nonMalleable).imp_left (Bool.or_eq_true ..).mpr)
  | thresh note k items ih =>
    obtain ⟨validBelow, positive, few, _⟩ := valid.thresh
    obtain ⟨_, revealedBelow⟩ := (Condition.all_thresh ..).mp revealed
    change note.type.malleability.nonMalleable = true at nonMalleable
    change Satisfaction.Matches _ note.type.malleability.safe _
    rw [valid.malleability_thresh] at nonMalleable ⊢
    rw [outcomes_thresh, outcomes_thresh]
    have below := List.forall_mem_map.mp (Malleability.nonMalleable_threshold nonMalleable)
    have many := Malleability.safe_of_nonMalleable_threshold nonMalleable
    rw [List.length_map, List.countP_map] at many
    have dissats (search : Search κ) (x : Typed κ Digest) (member : x ∈ items) :
        ∃ stack, (search.outcomes x).dissat.witness = .stack stack :=
      (validBelow x member).exists_dissat search ((validBelow x member).coherent.1 (below x member).2)
    have chosen := Outcomes.matches_threshold positive few
      (fun x member => ih x member (validBelow x member) (below x member).1 (revealedBelow x member))
      (dissats _) (dissats _) many
    have safe : (Malleability.threshold k (items.map fun x => x.type.malleability)).safe =
        decide (items.length - k < items.countP fun x => x.type.malleability.safe) := by
      simp [Malleability.threshold, few, List.countP_map, Function.comp_def]
    rw [safe]
    exact chosen

end Search

namespace Typed.Validated

variable {κ : Type} [PublicKey κ] {context : Context} {t : Typed κ Digest} {material : Material κ}

/-- Where every path needs a signature, nothing is malleable and every secret is at hand, the search
for a witness that third parties cannot alter succeeds whenever there is a witness at all. -/
theorem satisfy_nonMalleable_iff (valid : Validated context t) (safe : t.requiresSignature = true)
    (nonMalleable : t.type.malleability.nonMalleable = true) (revealed : t.Revealed material) :
    (∃ witness, t.satisfy context .nonMalleable material = .ok witness) ↔
      ∃ witness, t.satisfy context .malleable material = .ok witness := by
  have found : Satisfaction.Matches ((t.search context .nonMalleable material).outcomes t).sat
      t.type.malleability.safe ((t.search context .malleable material).outcomes t).sat :=
    (t.search context .nonMalleable material).matches_outcomes safe valid
      nonMalleable revealed
  simp only [satisfy_eq_ok, Witness.exists_eq_stack_iff found.settled,
    Witness.exists_eq_stack_iff found.settled', found.impossible_iff]

end Typed.Validated

namespace Typed

variable {κ : Type} [PublicKey κ] {context : Context} {d : Digest}

/-- One key alone, or another one together with a secret: `or_d(pk(A),and_v(v:pk(B),H))`. -/
def keyOrSecret (context : Context) (first second : κ) (d : Digest) : Typed κ Digest :=
  ofFragment context (.pair .orD (pk context first)
    (ofFragment context (.pair .andV (ofFragment context (.wrap .verify (pk context second)))
      (ofFragment context (.leaf (.digest d))))))

theorem validated_keyOrSecret {first second : κ} (allowed : context.checkKey first = .ok ())
    (allowed' : context.checkKey second = .ok ()) :
    Validated context (keyOrSecret context first second d) := by
  have composed {fragment : Fragment κ Digest (Typed κ Digest)} (fits : composes context fragment = true)
      (below : ∀ x ∈ fragment.children, Validated context x) := validated_ofFragment fits below
  refine composed rfl (List.forall_mem_cons.mpr ⟨validated_pk allowed, List.forall_mem_singleton.mpr ?_⟩)
  refine composed rfl (List.forall_mem_cons.mpr ⟨?_, List.forall_mem_singleton.mpr (composed rfl nofun)⟩)
  exact composed rfl (List.forall_mem_singleton.mpr (validated_pk allowed'))

/-- Without the first signature both searches take the second one and the secret. -/
theorem Validated.satisfy_nonMalleable_iff_keyOrSecret :
    ∃ (t : Typed PointKey Digest) (material : Material PointKey), Validated .segwit t ∧
      t.requiresSignature = true ∧ t.type.malleability.nonMalleable = true ∧ t.Revealed material ∧
      ∃ witness, t.satisfy .segwit .nonMalleable material = .ok witness := by
  let second : PointKey := ⟨false, Vector.replicate 32 2⟩
  let digest : Digest := ⟨.sha256, List.replicate 32 3, rfl⟩
  let t : Typed PointKey Digest := keyOrSecret .segwit ⟨false, Vector.replicate 32 1⟩ second digest
  let material : Material PointKey := { Material.none with
    ecdsa := fun key => if key = second then some [7] else none
    secret := fun _ => some (Vector.replicate 32 5) }
  have valid : Validated .segwit t := validated_keyOrSecret rfl rfl
  have revealed : t.Revealed material := by
    simp [t, keyOrSecret, Condition.Revealed, pk, Fragment.children, material]
  have liberal : t.satisfy .segwit .malleable material = .ok [List.replicate 32 5, [7], []] := by
    decide +kernel
  exact ⟨t, material, valid, rfl, rfl, revealed,
    (valid.satisfy_nonMalleable_iff rfl rfl revealed).mpr ⟨_, liberal⟩⟩

end Typed

end LockScript
