import LockScript.Proofs.Dissatisfaction
import LockScript.Proofs.Satisfaction

/-! # Choices that are left to third parties

A satisfaction is free if it takes nothing that only a signer can supply. Where the search has a choice
it never takes one satisfaction while another one is free, so what it leaves out needs a signature. A
third party who satisfies a condition without a signature has taken a free satisfaction.

Of the dissatisfactions that a search goes through not all matter. If it dissatisfies by type, those do that
the types allow. In a condition that is not malleable, only the unique ones do.
-/

namespace LockScript

namespace Growth

theorem le_of_isLE_bytes {a b : Int} (before : (compare (bytes a) (bytes b)).isLE = true) : a ≤ b := by
  have same : compare (bytes a) (bytes b) = compare a b := Ordering.then_eq
  rwa [same, Std.isLE_compare] at before

end Growth

namespace Satisfaction

variable {a b s lower upper : Satisfaction}

/-- Whether nothing is taken or missing that only a signer can supply. -/
def isFree (s : Satisfaction) : Bool :=
  !s.hasSignature && s.witness != .impossible

theorem isFree_iff : s.isFree = true ↔ s.hasSignature = false ∧ s.witness ≠ .impossible := by
  simp [isFree]

theorem isFree_below (below : lower.isFree = true) (above : upper.isFree = true) :
    (lower.below upper).isFree = true := by
  rw [isFree_iff] at below above ⊢
  refine ⟨by simp [Satisfaction.below, below.1, above.1], ?_⟩
  cases first : lower.witness <;> cases second : upper.witness <;>
    simp_all [Satisfaction.below, Witness.below]

theorem isFree_select {items : List Bytes} (free : s.isFree = true) :
    (s.select (.stack items)).isFree = true := by
  rw [isFree_iff] at free ⊢
  refine ⟨free.1, ?_⟩
  cases found : s.witness <;> simp_all [select, Witness.below]

/-- If one of two satisfactions is free then so is what is chosen. -/
theorem isFree_cheaperNonMalleable (free : a.isFree = true ∨ b.isFree = true) :
    (cheaperNonMalleable a b).isFree = true := by
  simp only [isFree_iff] at free ⊢
  unfold cheaperNonMalleable
  split
  next none => exact free.resolve_left fun found => found.2 none
  split
  next none => exact free.resolve_right fun found => found.2 none
  split
  all_goals simp_all

theorem cheaper_stack (first second : List Bytes) :
    ∃ items, (Witness.stack first).cheaper (.stack second) = .stack items :=
  (Witness.cheaper_eq _ _).elim (⟨first, ·⟩) (⟨second, ·⟩)

theorem cheaper_stack_left (items : List Bytes) (b : Satisfaction) :
    ∃ stack, cheaper ⟨.stack items, false⟩ b = ⟨.stack stack, false⟩ := by
  rcases b with ⟨_ | _ | _, signed⟩
  · obtain ⟨stack, same⟩ := cheaper_stack items _
    exact ⟨stack, congrArg (mk · false) same⟩
  · exact ⟨items, rfl⟩
  · exact ⟨items, rfl⟩

theorem cheaper_stack_right (a : Satisfaction) (items : List Bytes) :
    ∃ stack, cheaper a ⟨.stack items, false⟩ = ⟨.stack stack, false⟩ := by
  rcases a with ⟨_ | _ | _, signed⟩
  · obtain ⟨stack, same⟩ := cheaper_stack _ items
    simp only [cheaper, Bool.and_false]
    exact ⟨stack, congrArg (mk · false) same⟩
  · exact ⟨items, rfl⟩
  · exact ⟨items, rfl⟩

/-- What is chosen of two satisfactions is one of them, and then the other one is not free. -/
theorem cheaperNonMalleable_eq_stack {items : List Bytes}
    (found : (cheaperNonMalleable a b).witness = .stack items) :
    (a.witness = .stack items ∧ b.isFree = false) ∨ (b.witness = .stack items ∧ a.isFree = false) := by
  simp only [← Bool.not_eq_true, isFree_iff]
  unfold cheaperNonMalleable at found
  split at found
  next none => exact .inr ⟨found, fun free => free.2 none⟩
  split at found
  next none => exact .inl ⟨found, fun free => free.2 none⟩
  split at found
  next => cases found
  next signed => exact .inl ⟨found, by simp [signed]⟩
  next signed _ => exact .inr ⟨found, by simp [signed]⟩
  next signed signed' =>
    change a.witness.cheaper b.witness = _ at found
    rcases Witness.cheaper_eq a.witness b.witness with same | same <;> rw [same] at found
    · exact .inl ⟨found, by simp [signed']⟩
    · exact .inr ⟨found, by simp [signed]⟩

end Satisfaction

namespace Outcomes

variable {items : List Outcomes} {k : Nat}

/-- Where positions are sorted by a key, so are the children at them. -/
theorem sorted_positions {α κ : Type} (key : α → κ) (cmp : κ → κ → Ordering) [Std.TransCmp cmp]
    (items : List α) :
    (((items.zipIdx.map fun (x, i) => (key x, i)).mergeSort fun a b => (cmp a.1 b.1).isLE).map
      Prod.snd).Pairwise fun i j =>
        ∃ x y, items[i]? = some x ∧ items[j]? = some y ∧ (cmp (key x) (key y)).isLE = true := by
  let keyed := items.zipIdx.map fun (x, i) => (key x, i)
  have sorted : (keyed.mergeSort fun a b => (cmp a.1 b.1).isLE).Pairwise
      fun a b => (cmp a.1 b.1).isLE = true :=
    List.pairwise_mergeSort (fun _ _ _ => Std.TransCmp.isLE_trans) (fun _ _ => isLE_total _ _) keyed
  have located {cost : κ} {i : Nat} (member : (cost, i) ∈ keyed.mergeSort fun a b => (cmp a.1 b.1).isLE) :
      ∃ x, items[i]? = some x ∧ key x = cost := by
    obtain ⟨⟨x, i⟩, among, same⟩ := List.mem_map.mp ((List.mergeSort_perm _ _).mem_iff.mp member)
    obtain ⟨rfl, rfl⟩ := Prod.mk.inj same
    exact ⟨x, List.mem_zipIdx_iff_getElem?.mp among, rfl⟩
  rw [List.pairwise_map]
  refine sorted.imp_of_mem fun {a b} memberA memberB before => ?_
  obtain ⟨x, foundX, keyX⟩ := located memberA
  obtain ⟨y, foundY, keyY⟩ := located memberB
  exact ⟨x, y, foundX, foundY, by rwa [keyX, keyY]⟩

/-- Children that grow less come first. -/
theorem byGrowth_sorted (items : List Outcomes) : (byGrowth items).Pairwise fun i j =>
    ∃ x y, items[i]? = some x ∧ items[j]? = some y ∧ (compare x.growth y.growth).isLE = true :=
  sorted_positions growth compare items

/-- As many positions as children have a property. -/
theorem countP_positions {α : Type} {items : List α} {order : List Nat}
    (permutes : order.Perm (List.range items.length)) (p : α → Bool) :
    order.countP (fun i => items[i]?.any p) = items.countP p := by
  rw [permutes.countP_eq, List.range_eq_range', ← List.zipIdx_map_snd 0 items, List.countP_map]
  nth_rewrite 3 [← List.zipIdx_map_fst 0 items]
  rw [List.countP_map]
  refine List.countP_congr fun ⟨x, i⟩ among => ?_
  simp [List.mem_zipIdx_iff_getElem?.mp among]

/-- If those with a property come first and there are enough, then all that are taken first have it. -/
theorem forall_mem_take {α : Type} {order : List α} {p : α → Bool}
    (ordered : order.Pairwise fun i j => p j = true → p i = true) (enough : k ≤ order.countP p) {i : α}
    (member : i ∈ order.take k) : p i = true := by
  rw [← List.take_append_drop k order, List.countP_append] at enough
  rw [← List.take_append_drop k order, List.pairwise_append] at ordered
  by_contra bound
  have none : (order.drop k).countP p = 0 :=
    List.countP_eq_zero.mpr fun j later holds => bound (ordered.2.2 i member j later holds)
  have fewer : (order.take k).countP p ≠ (order.take k).length :=
    fun all => bound (List.countP_eq_length.mp all i member)
  have := List.countP_le_length (p := p) (l := order.take k)
  have := List.length_take_le k order
  omega

/-- Not being impossible counts first, then having no signature, then the cost. -/
private theorem isLE_signatureOrder {a b : Bool × Bool × Growth}
    (before : (signatureOrder a b).isLE = true) (possible : b.1 = false) :
    a.1 = false ∧ (b.2.1 = false → a.2.1 = false) ∧
      (a.2.1 = b.2.1 → (compare a.2.2 b.2.2).isLE = true) := by
  obtain ⟨none, signed, cost⟩ := a
  obtain ⟨none', signed', cost'⟩ := b
  obtain rfl := possible
  cases none with
  | true => cases before
  | false =>
    cases signed <;> cases signed'
    · exact ⟨rfl, fun _ => rfl, fun _ => before⟩
    · exact ⟨rfl, nofun, nofun⟩
    · cases before
    · exact ⟨rfl, nofun, fun _ => before⟩

/-- Children that can be satisfied come first, of these the ones without a signature, and of those with
the same flag the ones that grow less. -/
theorem bySignature_sorted (items : List Outcomes) : (bySignature items).Pairwise fun i j =>
    ∃ x y, items[i]? = some x ∧ items[j]? = some y ∧ (y.sat.witness ≠ .impossible →
      x.sat.witness ≠ .impossible ∧ (y.sat.hasSignature = false → x.sat.hasSignature = false) ∧
      (x.sat.hasSignature = y.sat.hasSignature → (compare x.growth y.growth).isLE = true)) := by
  refine (sorted_positions signatureKey signatureOrder items).imp ?_
  rintro i j ⟨x, y, foundX, foundY, before⟩
  refine ⟨x, y, foundX, foundY, fun possible => ?_⟩
  obtain ⟨first, second, third⟩ := isLE_signatureOrder before (beq_false_of_ne possible)
  exact ⟨ne_of_beq_false first, second, third⟩

/-- Whether the child at a position has a free satisfaction. -/
def freeAt (items : List Outcomes) (i : Nat) : Bool :=
  items[i]?.any (·.sat.isFree)

/-- Children with a free satisfaction come first. -/
theorem bySignature_pairwise (items : List Outcomes) :
    (bySignature items).Pairwise fun i j => freeAt items j = true → freeAt items i = true := by
  refine (bySignature_sorted items).imp ?_
  rintro i j ⟨x, y, foundX, foundY, before⟩ free
  rw [freeAt, foundY, Option.any_some, Satisfaction.isFree_iff] at free
  obtain ⟨possible, unsigned, _⟩ := before free.2
  rw [freeAt, foundX, Option.any_some, Satisfaction.isFree_iff]
  exact ⟨unsigned free.1, possible⟩

/-- Children that can be satisfied come first. -/
theorem bySignature_pairwise_possible (items : List Outcomes) :
    (bySignature items).Pairwise fun i j =>
      items[j]?.any (·.sat.witness != .impossible) = true →
        items[i]?.any (·.sat.witness != .impossible) = true := by
  refine (bySignature_sorted items).imp ?_
  rintro i j ⟨x, y, foundX, foundY, before⟩ possible
  rw [foundY, Option.any_some, bne_iff_ne] at possible
  rw [foundX, Option.any_some, bne_iff_ne]
  exact (before possible).1

/-- As many positions are free as children are. -/
theorem countP_freeAt (items : List Outcomes) :
    (bySignature items).countP (freeAt items) = items.countP (·.sat.isFree) :=
  countP_positions (bySignature_perm items) (·.sat.isFree)

/-- If enough children are free then all that are taken first are. -/
theorem freeAt_of_mem_take (enough : k ≤ items.countP (·.sat.isFree)) {i : Nat}
    (member : i ∈ (bySignature items).take k) : freeAt items i = true :=
  forall_mem_take (bySignature_pairwise items) (by rwa [countP_freeAt]) member

/-- If all that are taken first can be satisfied, the last of them is no reason to give up. -/
theorem last_possible (positive : 0 < k) (few : k ≤ items.length)
    (possible : ∀ i ∈ (bySignature items).take k,
      items[i]?.any (·.sat.witness != .impossible) = true) :
    ((bySignature items)[k - 1]?.bind (items[·]?)).any (·.sat.witness == .impossible) = false := by
  have length : (bySignature items).length = items.length := by
    simpa using (bySignature_perm items).length_eq
  have inside : k - 1 < ((bySignature items).take k).length := by
    rw [List.length_take, length]
    omega
  have taken := possible _ (List.getElem_mem inside)
  rw [List.getElem_take] at taken
  rw [List.getElem?_eq_getElem (by omega), Option.bind_some]
  cases found : items[(bySignature items)[k - 1]]? with
  | none => rfl
  | some o => simpa [found, bne_iff_ne] using taken

/-- What is put together for a threshold, through its parts: the satisfaction of each chosen child and
the dissatisfaction of each other one. -/
theorem exists_parts (chosen : List Nat) (items : List Outcomes) : ∃ parts : List Satisfaction,
    combine chosen items = ⟨parts.foldl (fun upper part => part.witness.below upper) .empty,
      parts.any (·.hasSignature)⟩ ∧
    ∀ part, part ∈ parts ↔ ∃ i o, items[i]? = some o ∧ (if i ∈ chosen then o.sat else o.dissat) = part := by
  refine ⟨_, rfl, fun part => ?_⟩
  simp only [List.mem_map, Prod.exists, List.mem_zipIdx_iff_getElem?, List.contains_iff_mem]
  exact exists_comm

/-- Free parts make a free whole. -/
theorem isFree_combine {chosen : List Nat} (dissats : ∀ o ∈ items, o.dissat.isFree = true)
    (sats : ∀ i ∈ chosen, freeAt items i = true) : (combine chosen items).isFree = true := by
  obtain ⟨list, combined, among⟩ := exists_parts chosen items
  have parts : ∀ part ∈ list, part.isFree = true := by
    intro part member
    obtain ⟨i, o, found, rfl⟩ := (among part).mp member
    split
    next member => simpa [freeAt, found] using sats i member
    next => exact dissats o (List.mem_of_getElem? found)
  rw [combined, Satisfaction.isFree_iff]
  clear combined among
  refine ⟨List.any_eq_false.mpr fun part member => ?_, ?_⟩
  · simp [(Satisfaction.isFree_iff.mp (parts part member)).1]
  · have fold (upper : Witness) (possible : upper ≠ .impossible) :
        list.foldl (fun upper part => part.witness.below upper) upper ≠ .impossible := by
      induction list generalizing upper with
      | nil => exact possible
      | cons part list ih =>
        obtain ⟨first, rest⟩ := List.forall_mem_cons.mp parts
        refine ih rest _ ?_
        have := (Satisfaction.isFree_iff.mp first).2
        cases found : part.witness <;> cases upper <;> simp_all [Witness.below]
    exact fold .empty (by decide)

/-- If enough children are free, and all can be dissatisfied freely, then so is the threshold. -/
theorem isFree_threshold (positive : 0 < k) (few : k ≤ items.length)
    (dissats : ∀ o ∈ items, o.dissat.isFree = true) (enough : k ≤ items.countP (·.sat.isFree)) :
    (threshold .nonMalleable k items).isFree = true := by
  have last := last_possible positive few fun i member => by
    have free := freeAt_of_mem_take enough member
    rw [freeAt, Option.any_eq_true] at free
    obtain ⟨o, found, free⟩ := free
    rw [found, Option.any_some, bne_iff_ne]
    exact (Satisfaction.isFree_iff.mp free).2
  simp only [threshold, thresholdNonMalleable, last]
  rw [if_neg (by omega), if_neg Bool.false_ne_true]
  split
  · rfl
  · exact isFree_combine dissats fun i member => freeAt_of_mem_take enough member

/-- No child that is left out by a threshold is free. -/
theorem threshold_left_out {stack : List Bytes}
    (found : (threshold .nonMalleable k items).witness = .stack stack) :
    ∃ marks : List Bool, marks.countP id = k ∧ gather marks items = .stack stack ∧
      List.Forall₂ (fun mark o => mark = false → o.sat.isFree = false) marks items := by
  simp only [threshold, thresholdNonMalleable] at found
  split at found
  next => cases found
  next inRange =>
  split at found
  next => cases found
  next =>
  split at found
  next => cases found
  next bound =>
  obtain ⟨width, count, gathered⟩ := combine_take (bySignature_perm items) (by omega) found
  refine ⟨_, count, gathered, List.forall₂_iff_get.mpr ⟨width, fun i inside inside' left => ?_⟩⟩
  have absent : i ∉ (bySignature items).take k := by simpa using left
  have member := mem_drop_of_not_mem_take (bySignature_perm items) inside' absent
  -- The first child that is left out is not free, and no later one is.
  have ordered := (bySignature_pairwise items).sublist (List.drop_sublist k _)
  have next : k < (bySignature items).length := by
    by_contra short
    rw [List.drop_eq_nil_of_le (by omega)] at member
    cases member
  rw [List.drop_eq_getElem_cons next] at member ordered
  have first : freeAt items (bySignature items)[k] = false := by
    rw [List.getElem?_eq_getElem next, Option.bind_some] at bound
    simpa [freeAt, Satisfaction.isFree] using bound
  have this : freeAt items i = false := by
    rcases List.mem_cons.mp member with rfl | later
    · exact first
    · by_contra free
      rw [Bool.not_eq_false] at free
      exact Bool.false_ne_true (first.symm.trans ((List.pairwise_cons.mp ordered).1 i later free))
  simpa [freeAt, inside'] using this

end Outcomes

namespace Typed.Validated

variable {κ : Type} [PublicKey κ] {search : Search κ} {e : Evaluator} {context : Context}
  {t : Typed κ Digest} {regular : Bool} {taken : List Bytes}

/-- What can be dissatisfied by its type always is, and by what anyone can build. The latter holds also
where an `or_i` has two dissatisfactions to choose from and takes one that its type says nothing of. -/
theorem dissat_eq (valid : Validated context t) (may : t.type.soundness.dissatisfiable = true) :
    ∃ items, (search.outcomes t).dissat = ⟨.stack items, false⟩ := by
  induction t using Typed.induct with
  | leaf note l =>
    change note.type.soundness.dissatisfiable = true at may
    rw [← valid.leaf.2] at may
    rw [Search.outcomes_leaf]
    cases l with
    | zero | key k | keyHash k | digest d | multi ks | multiA ks => exact ⟨_, rfl⟩
    | one | after lock | older lock => cases may
  | wrap note w x ih =>
    have may := valid.dissatisfiable_wrap.symm.trans may
    rw [Search.outcomes_wrap]
    cases w with
    | alt | swap | check | zeroNotEqual => exact ih valid.wrap.1 may
    | dupIf | nonzero => exact ⟨_, rfl⟩
    | verify => cases may
  | pair note op x y ihX ihY =>
    obtain ⟨validX, validY, _⟩ := valid.pair
    obtain ⟨mayX, mayY⟩ := valid.dissatisfiable_of_pair
    have may := valid.dissatisfiable_pair.symm.trans may
    have both (mayX : x.type.soundness.dissatisfiable = true)
        (mayY : y.type.soundness.dissatisfiable = true) :
        ∃ items, (search.outcomes y).dissat.below (search.outcomes x).dissat =
          ⟨.stack items, false⟩ := by
      obtain ⟨upper, sameX⟩ := ihX validX mayX
      obtain ⟨lower, sameY⟩ := ihY validY mayY
      rw [sameX, sameY]
      exact ⟨_, rfl⟩
    rw [Search.outcomes_pair]
    cases op with
    | andV | orC => cases may
    | andB => exact both (Bool.and_eq_true_iff.mp may).1 (Bool.and_eq_true_iff.mp may).2
    | orB => exact both (mayX (by simp)) (mayY rfl)
    | orD => exact both (mayX (by simp)) may
    | orI =>
      simp only [Outcomes.pair]
      rcases Bool.or_eq_true_iff.mp may with mayX | mayY
      · obtain ⟨items, same⟩ := ihX validX mayX
        exact same ▸ Satisfaction.cheaper_stack_left _ _
      · obtain ⟨items, same⟩ := ihY validY mayY
        exact same ▸ Satisfaction.cheaper_stack_right _ _
  | andOr note x y z ihX _ ihZ =>
    obtain ⟨validX, _, validZ, _⟩ := valid.andOr
    obtain ⟨mayX, mayZ⟩ := valid.dissatisfiable_andOr
    obtain ⟨upper, sameX⟩ := ihX validX mayX
    obtain ⟨lower, sameZ⟩ := ihZ validZ (mayZ.symm.trans may)
    rw [Search.outcomes_andOr, Outcomes.andOr, sameX, sameZ]
    exact ⟨_, rfl⟩
  | thresh note k items ih =>
    obtain ⟨each, _⟩ := valid.dissatisfiable_thresh
    have fold (upper : List Bytes) (items : List (Typed κ Digest))
        (each : ∀ x ∈ items, ∃ stack, (search.outcomes x).dissat = ⟨.stack stack, false⟩) :
        ∃ stack, (items.map search.outcomes).foldl (fun upper o => o.dissat.below upper)
          ⟨.stack upper, false⟩ = ⟨.stack stack, false⟩ := by
      induction items generalizing upper with
      | nil => exact ⟨upper, rfl⟩
      | cons x items ih =>
        obtain ⟨⟨stack, same⟩, rest⟩ := List.forall_mem_cons.mp each
        rw [List.map_cons, List.foldl_cons, same]
        exact ih (stack ++ upper) rest
    rw [Search.outcomes_thresh]
    exact fold [] items fun x member => ih x member (valid.thresh.1 x member) (each x member)

theorem exists_dissat (search : Search κ) (valid : Validated context t)
    (may : t.type.soundness.dissatisfiable = true) :
    ∃ stack, (search.outcomes t).dissat.witness = .stack stack :=
  (valid.dissat_eq may).imp fun _ => congrArg Satisfaction.witness

theorem dissat_free (valid : Validated context t)
    (unique : t.type.malleability.dissatisfaction = .unique) :
    (search.outcomes t).dissat.isFree = true := by
  obtain ⟨items, same⟩ := valid.dissat_eq (valid.coherent.1 unique)
  rw [same]
  rfl

section Frees

variable {note : Attributes} {x y z : Typed κ Digest}

/-- What satisfies a condition without a signature is free to all. -/
private def Frees (search : Search κ) (e : Evaluator) (regular : Bool) (t : Typed κ Digest) : Prop :=
  ∀ ⦃taken⦄, e.Unsigned t.keys → e.OpensOnly taken t.keys → t.Answers e regular true taken →
    (search.outcomes t).sat.isFree = true

private theorem frees_leaf {l : Leaf κ Digest}
    (meetsAfter : ∀ lock, search.material.meetsAfter lock = e.meetsAfter lock.value)
    (meetsOlder : ∀ lock, search.material.meetsOlder lock = e.meetsOlder lock.value)
    (valid : Validated context (.leaf note l)) : Frees search e regular (.leaf note l) := by
  intro taken unsigned opens run
  have signs (safe : (FragmentType.ofLeaf l).malleability.safe = true) : False := by
    rw [← valid.malleability_leaf] at safe
    exact valid.not_yes_of_safe safe unsigned opens run
  rw [Condition.answers_leaf] at run
  rw [Search.outcomes_leaf]
  cases l with
  | one => rfl
  | zero | key k | keyHash k | multi ks | multiA ks => exact (signs rfl).elim
  | after lock =>
    have met := (meetsAfter lock).trans run.2.2
    simp [Search.ofLeaf, Search.lock, met, Satisfaction.isFree, Witness.empty]
  | older lock =>
    have met := (meetsOlder lock).trans run.2.2
    simp [Search.ofLeaf, Search.lock, met, Satisfaction.isFree, Witness.empty]
  | digest d =>
    simp only [Search.ofLeaf, Search.secret]
    split <;> rfl

private theorem Frees.wrap (below : Frees search e regular x) (w : Wrapper) :
    Frees search e regular (.wrap note w x) := by
  intro taken unsigned opens run
  rw [Condition.answers_wrap] at run
  rw [Condition.keys_wrap] at unsigned opens
  rw [Search.outcomes_wrap]
  cases w with
  | alt | swap | check | zeroNotEqual => exact below unsigned opens run
  | verify => exact below unsigned opens run.2
  | dupIf =>
    obtain ⟨no, _⟩ | ⟨_, _, run⟩ := run
    · cases no
    · exact Satisfaction.isFree_select (below unsigned (opens.mono (List.forall_mem_nil _) fun _ => id) run)
  | nonzero =>
    obtain ⟨no, _⟩ | ⟨_, _, _, _, _, run, _⟩ := run
    · cases no
    · exact below unsigned opens run

private theorem Frees.pair (policy : search.policy = .nonMalleable) {op : Connective}
    (dissatX : op ∈ [.orB, .orD, .orC] → (search.outcomes x).dissat.isFree = true)
    (dissatY : op = .orB → (search.outcomes y).dissat.isFree = true)
    (first : Frees search e regular x) (second : Frees search e regular y) :
    Frees search e regular (.pair note op x y) := by
  intro taken unsigned opens run
  rw [Condition.answers_pair] at run
  rw [Condition.keys_pair] at unsigned opens
  rw [Search.outcomes_pair, policy]
  obtain ⟨unsignedX, unsignedY⟩ := unsigned.append
  cases op with
  | andV =>
    obtain ⟨⟨upper, lower, rfl, left, right⟩, _⟩ := run
    exact Satisfaction.isFree_below (second unsignedY opens.append.2 right)
      (first unsignedX opens.append.1 left)
  | andB =>
    obtain ⟨_, _, ⟨upper, lower, rfl, left, right⟩, yes, _⟩ := run
    obtain ⟨rfl, rfl⟩ := Bool.and_eq_true_iff.mp yes.symm
    exact Satisfaction.isFree_below (second unsignedY opens.append.2 right)
      (first unsignedX opens.append.1 left)
  | orB =>
    obtain ⟨_, _, ⟨upper, lower, rfl, left, right⟩, yes, _⟩ := run
    apply Satisfaction.isFree_cheaperNonMalleable
    rcases Bool.or_eq_true_iff.mp yes.symm with rfl | rfl
    · exact .inr (Satisfaction.isFree_below (dissatY rfl) (first unsignedX opens.append.1 left))
    · exact .inl (Satisfaction.isFree_below (second unsignedY opens.append.2 right) (dissatX (by simp)))
  | orD | orC =>
    apply Satisfaction.isFree_cheaperNonMalleable
    obtain ⟨_, left⟩ | ⟨upper, lower, rfl, _, right⟩ := run
    · exact .inl (first unsignedX (opens.mono (fun _ => id) fun _ => List.mem_append_left _) left)
    · exact .inr (Satisfaction.isFree_below (second unsignedY opens.append.2 right) (dissatX (by simp)))
  | orI =>
    apply Satisfaction.isFree_cheaperNonMalleable
    obtain ⟨rest, ⟨rfl, left⟩ | ⟨rfl, right⟩⟩ := run
    · exact .inl (Satisfaction.isFree_select (first unsignedX
        (opens.mono (fun _ => List.mem_cons_of_mem _) fun _ => List.mem_append_left _) left))
    · exact .inr (Satisfaction.isFree_select (second unsignedY
        (opens.mono (fun _ => List.mem_cons_of_mem _) fun _ => List.mem_append_right _) right))

private theorem Frees.andOr (policy : search.policy = .nonMalleable)
    (dissatX : (search.outcomes x).dissat.isFree = true) (first : Frees search e regular x)
    (second : Frees search e regular y) (third : Frees search e regular z) :
    Frees search e regular (.andOr note x y z) := by
  intro taken unsigned opens run
  rw [Condition.answers_andOr] at run
  rw [Condition.keys_andOr] at unsigned opens
  obtain ⟨unsigned, unsignedZ⟩ := unsigned.append
  obtain ⟨unsignedX, unsignedY⟩ := unsigned.append
  rw [Search.outcomes_andOr, policy]
  apply Satisfaction.isFree_cheaperNonMalleable
  obtain ⟨⟨upper, lower, rfl, left, right⟩, _⟩ | ⟨upper, lower, rfl, _, right⟩ := run
  · have opensX : e.OpensOnly upper x.keys :=
      opens.mono (fun _ => List.mem_append_left lower) (by simp +contextual)
    have opensY : e.OpensOnly lower y.keys :=
      opens.mono (fun _ => List.mem_append_right upper) (by simp +contextual)
    exact .inl (Satisfaction.isFree_below (second unsignedY opensY right) (first unsignedX opensX left))
  · exact .inr (Satisfaction.isFree_below (third unsignedZ opens.append.2 right) dissatX)

private theorem frees_thresh (policy : search.policy = .nonMalleable) {k : Nat}
    {items : List (Typed κ Digest)} (positive : 0 < k) (bounded : k ≤ items.length)
    (dissats : ∀ x ∈ items, (search.outcomes x).dissat.isFree = true)
    (each : ∀ x ∈ items, Frees search e regular x) : Frees search e regular (.thresh note k items) := by
  intro taken unsigned opens run
  rw [Condition.answers_thresh] at run
  rw [Condition.keys_thresh] at unsigned opens
  obtain ⟨parts, runs, rfl, _, yes, _⟩ := run
  rw [List.forall₂_map_left_iff] at runs
  rw [Search.outcomes_thresh, policy]
  refine Outcomes.isFree_threshold positive (by simpa using bounded) (List.forall_mem_map.mpr dissats) ?_
  rw [List.countP_map, ← beq_iff_eq.mp yes.symm]
  refine countP_le_of_forall₂ runs fun x member part among run yes => ?_
  rw [yes] at run
  exact each x member (Evaluator.unsigned_flatMap unsigned member)
    (opens.mono (fun _ taken => List.mem_flatMap.mpr ⟨part, among, taken⟩)
      fun _ own => List.mem_flatMap.mpr ⟨x, member, own⟩) run

end Frees

/-- What a third party satisfies without a signature is free to all. -/
theorem sat_free (policy : search.policy = .nonMalleable)
    (meetsAfter : ∀ lock, search.material.meetsAfter lock = e.meetsAfter lock.value)
    (meetsOlder : ∀ lock, search.material.meetsOlder lock = e.meetsOlder lock.value)
    (valid : Validated context t) (nonMalleable : t.type.malleability.nonMalleable = true)
    (unsigned : e.Unsigned t.keys) (opens : e.OpensOnly taken t.keys)
    (run : t.Answers e regular true taken) : (search.outcomes t).sat.isFree = true := by
  suffices Frees search e regular t from this unsigned opens run
  clear unsigned opens run
  induction t using Typed.induct with
  | leaf note l => exact frees_leaf meetsAfter meetsOlder valid
  | wrap note w x ih =>
    change note.type.malleability.nonMalleable = true at nonMalleable
    rw [valid.malleability_wrap, Malleability.nonMalleable_wrap] at nonMalleable
    exact (ih valid.wrap.1 nonMalleable).wrap w
  | pair note op x y ihX ihY =>
    obtain ⟨validX, validY, _⟩ := valid.pair
    obtain ⟨nonMalleableX, nonMalleableY, uniqueX, uniqueY⟩ :=
      Malleability.nonMalleable_pair (valid.malleability_pair ▸ nonMalleable)
    exact .pair policy (fun among => validX.dissat_free (uniqueX among))
      (fun same => validY.dissat_free (uniqueY same)) (ihX validX nonMalleableX) (ihY validY nonMalleableY)
  | andOr note x y z ihX ihY ihZ =>
    obtain ⟨validX, validY, validZ, _⟩ := valid.andOr
    obtain ⟨⟨nonMalleableX, uniqueX⟩, nonMalleableY, nonMalleableZ⟩ :=
      Malleability.nonMalleable_andOr (valid.malleability_andOr ▸ nonMalleable)
    exact .andOr policy (validX.dissat_free uniqueX) (ihX validX nonMalleableX) (ihY validY nonMalleableY)
      (ihZ validZ nonMalleableZ)
  | thresh note k items ih =>
    obtain ⟨validBelow, positive, bounded, _⟩ := valid.thresh
    have below := Malleability.nonMalleable_threshold (valid.malleability_thresh ▸ nonMalleable)
    rw [List.forall_mem_map] at below
    exact frees_thresh policy positive bounded
      (fun x member => (validBelow x member).dissat_free (below x member).2)
      fun x member => ih x member (validBelow x member) (below x member).1

section Matters

/-- If the search dissatisfies by type, and wrong secrets are wrong, all that the types allow to dissatisfy
may matter. -/
theorem descendsThrough_of_byType (valid : Validated context t) (avoids : t.AvoidsZeros)
    (byType : search.DissatisfiesByType t) :
    search.DescendsThrough (fun x => x.type.soundness.dissatisfiable = true) t := by
  intro x below
  have valid := valid.of_mem_preorder below
  have avoids := avoids x below
  have byType := byType x below
  cases x with
  | leaf note l =>
    cases l with
    | digest d => exact fun _ => avoids
    | one | zero | key | keyHash | after | older | multi | multiA => trivial
  | wrap note w x =>
    intro notDupIf notNonzero may
    have may := valid.dissatisfiable_wrap.symm.trans may
    cases w with
    | alt | swap | check | zeroNotEqual => exact may
    | verify => cases may
    | dupIf => exact absurd rfl notDupIf
    | nonzero => exact absurd rfl notNonzero
  | pair note op x y =>
    obtain ⟨mayX, mayY⟩ := valid.dissatisfiable_of_pair
    have same := valid.dissatisfiable_pair
    cases op with
    | andV => exact fun may => absurd (same.symm.trans may) Bool.false_ne_true
    | andB => exact fun may => Bool.and_eq_true_iff.mp (same.symm.trans may)
    | orB => exact ⟨mayX (by simp), mayY rfl⟩
    | orC => exact mayX (by simp)
    | orD => exact ⟨mayX (by simp), same.symm.trans⟩
    | orI => exact fun may => byType (same.symm.trans may)
  | andOr note x y z =>
    obtain ⟨mayX, mayZ⟩ := valid.dissatisfiable_andOr
    exact ⟨mayX, mayZ.symm.trans⟩
  | thresh note k items => exact valid.dissatisfiable_thresh.1

/-- In a non-malleable condition only the unique dissatisfactions matter. That of a hashlock is not. -/
theorem descendsThrough_of_nonMalleable (valid : Validated context t)
    (nonMalleable : t.type.malleability.nonMalleable = true) (byType : search.DissatisfiesByType t) :
    search.DescendsThrough (fun x => x.type.malleability.dissatisfaction = .unique) t := by
  intro x below
  have nonMalleable := valid.nonMalleable_of_mem_preorder nonMalleable below
  have valid := valid.of_mem_preorder below
  have byType := byType x below
  cases x with
  | leaf note l =>
    cases l with
    | digest d =>
      intro unique
      cases (congrArg Malleability.dissatisfaction valid.malleability_leaf).symm.trans unique
    | one | zero | key | keyHash | after | older | multi | multiA => trivial
  | wrap note w x =>
    intro notDupIf notNonzero unique
    have unique := (congrArg Malleability.dissatisfaction valid.malleability_wrap).symm.trans unique
    cases w with
    | alt | swap | check | zeroNotEqual => exact unique
    | verify => cases unique
    | dupIf => exact absurd rfl notDupIf
    | nonzero => exact absurd rfl notNonzero
  | pair note op x y =>
    obtain ⟨validX, validY, _⟩ := valid.pair
    obtain ⟨_, _, uniqueX, uniqueY⟩ :=
      Malleability.nonMalleable_pair (valid.malleability_pair ▸ nonMalleable)
    have same := congrArg Malleability.dissatisfaction valid.malleability_pair
    cases op with
    | andV => exact fun own => absurd (same.symm.trans own) Malleability.andV_ne_unique
    | andB =>
      intro own
      obtain ⟨⟨uniqueX, _⟩, uniqueY, _⟩ := Malleability.andB_eq_unique.mp (same.symm.trans own)
      exact ⟨uniqueX, uniqueY⟩
    | orB => exact ⟨uniqueX (by simp), uniqueY rfl⟩
    | orC => exact uniqueX (by simp)
    | orD => exact ⟨uniqueX (by simp), same.symm.trans⟩
    | orI =>
      -- Only one of the branches can be dissatisfied, so the search goes through this one.
      intro own
      have taken := byType (valid.dissatisfiable_pair.symm.trans (valid.coherent.1 own))
      obtain ⟨uniqueX, noneY⟩ | ⟨noneX, uniqueY⟩ := Malleability.orI_eq_unique.mp (same.symm.trans own)
      · exact .inl ⟨uniqueX, (taken.resolve_right fun right =>
          absurd (right.1.symm.trans (validY.coherent.2 noneY)) (by decide)).2⟩
      · exact .inr ⟨uniqueY, (taken.resolve_left fun left =>
          absurd (left.1.symm.trans (validX.coherent.2 noneX)) (by decide)).2⟩
  | andOr note x y z =>
    obtain ⟨⟨_, uniqueX⟩, _, _⟩ :=
      Malleability.nonMalleable_andOr (valid.malleability_andOr ▸ nonMalleable)
    have same := congrArg Malleability.dissatisfaction valid.malleability_andOr
    exact ⟨uniqueX, fun unique =>
      ((Malleability.andOr_dissatisfaction (by decide)).mp (same.symm.trans unique)).2⟩
  | thresh note k items =>
    have each := Malleability.nonMalleable_threshold (valid.malleability_thresh ▸ nonMalleable)
    exact fun x member => (List.forall_mem_map.mp each x member).2

end Matters

end Typed.Validated

end LockScript
