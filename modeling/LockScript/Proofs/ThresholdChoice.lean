import LockScript.Proofs.Candidates

/-! # Which children a threshold takes

A threshold sorts its children, takes the first `k` and dissatisfies the others. Nothing is lost by
that. With the liberal policy there is a witness wherever a choice of `k` children has one, and it is
that of a cheapest choice. The cautious policy only looks at choices that take everything that is free,
and finds a cheapest one of these. If more than `k` children are free there is none, since a third party
could exchange one that is taken for one that is not.
-/

namespace LockScript

namespace Satisfaction

/-- Whether a signature is taken, and nothing is missing that only a signer can supply. -/
def isSigned (s : Satisfaction) : Bool :=
  s.hasSignature && s.witness != .impossible

/-- A satisfaction that is possible is free or signed. -/
theorem countP_eq_free_add_signed {α : Type} {p : α → Bool} {s : α → Satisfaction}
    (possible : ∀ x, p x = true → (s x).witness ≠ .impossible) (items : List α) :
    items.countP p = items.countP (fun x => (s x).isFree && p x) +
      items.countP fun x => (s x).isSigned && p x := by
  have same (x : α) (flag : Bool) : (p x && flag) = ((flag && (s x).witness != .impossible) && p x) := by
    by_cases holds : p x = true
    · simp [holds, possible x holds]
    · simp [holds]
  rw [List.countP_eq_countP_filter_add _ p fun x => (s x).hasSignature, List.countP_filter,
    List.countP_filter, Nat.add_comm]
  simp only [same]
  rfl

end Satisfaction

/-- Whether there is a witness. -/
def Witness.isStack : Witness → Bool
  | stack _ => true
  | unavailable | impossible => false

theorem Witness.isStack_iff {w : Witness} : w.isStack = true ↔ ∃ stack, w = .stack stack := by
  cases w <;> simp [isStack]

namespace Outcomes

variable {items : List Outcomes} {parts : List (Bool × List Bytes)} {marks : List Bool} {k : Nat}
  {stack : List Bytes}

/-- A choice of `k` children to satisfy, told by what is taken for each child: its mark, and the stack
of its satisfaction if it is marked and of its dissatisfaction if not. -/
structure Selection (k : Nat) (items : List Outcomes) (parts : List (Bool × List Bytes)) : Prop where
  found : List.Forall₂ (fun o part => (o.pick part.1).witness = .stack part.2) items parts
  count : parts.countP Prod.fst = k

/-- A choice that takes all that is free. What it takes besides is signed, since it is possible. -/
structure CautiousSelection (k : Nat) (items : List Outcomes) (parts : List (Bool × List Bytes)) : Prop
    extends Selection k items parts where
  free : List.Forall₂ (fun o part => o.sat.isFree = true → part.1 = true) items parts

/-- The parts of a choice put together, the first child on top. -/
def layOut (parts : List (Bool × List Bytes)) : List Bytes :=
  (parts.map Prod.snd).reverse.flatten

/-- What is gathered from children that all have what is asked of them. -/
theorem gather_eq_layOut
    (found : List.Forall₂ (fun o part => (o.pick part.1).witness = .stack part.2) items parts) :
    gather (parts.map Prod.fst) items = .stack (layOut parts) := by
  have fold (above : List Bytes) :
      (List.zipWith (fun mark o => pick o mark) (parts.map Prod.fst) items).foldl
        (fun upper part => part.witness.below upper) (.stack above) =
          .stack (layOut parts ++ above) := by
    induction found generalizing above with
    | nil => rfl
    | @cons o part items parts head _ ih =>
      rw [List.map_cons, List.zipWith_cons_cons, List.foldl_cons, head]
      refine (ih (part.2 ++ above)).trans ?_
      simp [layOut]
  exact (fold []).trans (by rw [List.append_nil])

/-- Where there is a stack for marked children, each of them has its part in it. -/
theorem exists_parts_of_gather (exact : marks.length = items.length)
    (gathered : gather marks items = .stack stack) :
    ∃ parts, List.Forall₂ (fun o part => (o.pick part.1).witness = .stack part.2) items parts ∧
      parts.map Prod.fst = marks ∧ stack = layOut parts := by
  have own : List.Forall₂ Gives items (items.map Candidates.ofLeaf) := by
    rw [List.forall₂_map_right_iff, List.forall₂_same]
    exact fun o _ => gives_ofLeaf o
  obtain ⟨parts, found, shape, same⟩ := gives_gather own exact stack gathered
  refine ⟨parts.map fun part => (part.1, part.2.reverse), ?_, by rw [List.map_map]; exact same, ?_⟩
  · rw [List.forall₂_map_right_iff]
    exact List.forall₂_map_left_iff.mp found
  · rw [← List.reverse_reverse stack, shape, layOut, List.reverse_flatMap, List.map_map,
      List.flatMap_def, List.map_reverse]
    rfl

/-- What was chosen by positions, child by child. -/
theorem forall₂_contains {P : Bool → Outcomes → Prop} {chosen : List Nat}
    (taken : ∀ i ∈ chosen, ∀ o, items[i]? = some o → P true o)
    (left : ∀ i, i ∉ chosen → ∀ o, items[i]? = some o → P false o) :
    List.Forall₂ (fun o mark => P mark o) items ((List.range items.length).map chosen.contains) := by
  refine List.forall₂_iff_get.mpr ⟨by simp, fun i inside _ => ?_⟩
  have located : items[i]? = some items[i] := List.getElem?_eq_getElem inside
  simp only [List.get_eq_getElem, List.getElem_map, List.getElem_range]
  by_cases member : i ∈ chosen
  · rw [List.contains_iff_mem.mpr member]
    exact taken i member _ located
  · rw [Bool.eq_false_iff.mpr fun contained => member (List.contains_iff_mem.mp contained)]
    exact left i member _ located

/-- Where each child has what is asked of it, there are parts of that. -/
theorem exists_parts_of_forall₂
    (each : List.Forall₂ (fun o mark => (o.pick mark).witness.isStack = true) items marks) :
    ∃ parts, List.Forall₂ (fun o part => (o.pick part.1).witness = .stack part.2) items parts ∧
      parts.map Prod.fst = marks := by
  induction each with
  | nil => exact ⟨[], .nil, rfl⟩
  | @cons o mark items marks head _ ih =>
    obtain ⟨stack, found⟩ := Witness.isStack_iff.mp head
    obtain ⟨parts, below, same⟩ := ih
    exact ⟨(mark, stack) :: parts, .cons found below, congrArg (mark :: ·) same⟩

/-- The liberal threshold is smaller than any choice. -/
theorem undercuts_thresholdMalleable (positive : 0 < k) :
    (thresholdMalleable k items).witness.Undercuts
      fun taken => ∃ parts, Selection k items parts ∧ taken = layOut parts := by
  rintro _ ⟨parts, ⟨found, count⟩, rfl⟩
  have marked : (parts.map Prod.fst).countP id = k := by rw [List.countP_map]; exact count
  have exact : (parts.map Prod.fst).length = items.length := by rw [List.length_map, found.length_eq]
  have best := cost_threshold_le (marked ▸ positive) exact
  rwa [marked, gather_eq_layOut found] at best

/-- A threshold has a witness by the liberal policy exactly if some choice of `k` children has one. It is
then that of a choice, the first child on top, and no choice has a smaller one. -/
theorem thresholdMalleable_exact (positive : 0 < k) :
    ((∃ stack, (thresholdMalleable k items).witness = .stack stack) ↔
        ∃ parts, Selection k items parts) ∧
      ∀ stack, (thresholdMalleable k items).witness = .stack stack →
        (∃ parts, Selection k items parts ∧ stack = layOut parts) ∧
        ∀ parts, Selection k items parts → witnessSize stack ≤ witnessSize (layOut parts) := by
  have chosen (stack : List Bytes) (found : (thresholdMalleable k items).witness = .stack stack) :
      ∃ parts, Selection k items parts ∧ stack = layOut parts := by
    change (threshold .malleable k items).witness = .stack stack at found
    obtain ⟨marks, exact, count, gathered⟩ := threshold_eq_stack found
    obtain ⟨parts, each, rfl, shape⟩ := exists_parts_of_gather exact gathered
    exact ⟨parts, ⟨each, by rwa [List.countP_map] at count⟩, shape⟩
  have under : (thresholdMalleable k items).witness.Undercuts _ := undercuts_thresholdMalleable positive
  refine ⟨⟨fun ⟨stack, found⟩ => ?_, fun ⟨parts, selected⟩ => ?_⟩, fun stack found => ⟨chosen stack found, ?_⟩⟩
  · obtain ⟨parts, selected, _⟩ := chosen stack found
    exact ⟨parts, selected⟩
  · obtain ⟨stack, found, _⟩ := under.exists_stack ⟨parts, selected, rfl⟩
    exact ⟨stack, found⟩
  · intro parts selected
    have le := under _ ⟨parts, selected, rfl⟩
    rwa [found, Witness.cost_stack, Nat.cast_le] at le

/-- Of four children the first cannot be dissatisfied and the third not satisfied. Of the other two the
one with the shorter signature is taken. -/
theorem thresholdMalleable_exact_forced :
    let items : List Outcomes := [
      ⟨.impossible, ⟨.stack [[7, 7]], false⟩⟩,
      ⟨.pushZero, ⟨.stack [[1, 2, 3]], true⟩⟩,
      ⟨.pushZero, ⟨.unavailable, false⟩⟩,
      ⟨.pushZero, ⟨.stack [[4, 5]], true⟩⟩]
    let stack := [[7, 7], [], [], [4, 5]].reverse
    0 < 2 ∧ (thresholdMalleable 2 items).witness = .stack stack ∧
      (∃ parts, Selection 2 items parts ∧ stack = layOut parts) ∧
      ∀ parts, Selection 2 items parts → 8 ≤ witnessSize (layOut parts) := by
  intro items stack
  have found : (thresholdMalleable 2 items).witness = .stack stack := by
    rw [thresholdMalleable, byGrowth_eq]
    decide +kernel
  exact ⟨by decide, found, (thresholdMalleable_exact (by decide)).2 _ found⟩

/-! ### The cautious policy -/

/-- How many children have a satisfaction that is free. -/
abbrev freeCount (items : List Outcomes) : Nat :=
  items.countP (·.sat.isFree)

/-- How many children have a satisfaction that is signed. -/
abbrev signedCount (items : List Outcomes) : Nat :=
  items.countP (·.sat.isSigned)

/-- What an answer costs if no free satisfaction may be left out. -/
private def cautiousCost (o : Outcomes) : Bool → ℕ∞
  | true => o.sat.witness.cost
  | false => if o.sat.isFree then ⊤ else o.dissat.witness.cost

private theorem markedCost_cautious
    (free : List.Forall₂ (fun o mark => o.sat.isFree = true → mark = true) items marks) :
    markedCost cautiousCost marks items = (gather marks items).cost := by
  rw [cost_gather, markedCost, markedCost]
  congr 1
  induction free with
  | nil => rfl
  | @cons o mark items marks head _ ih =>
    rw [List.zipWith_cons_cons, List.zipWith_cons_cons, ih]
    congr 1
    cases mark with
    | true => rfl
    | false => exact if_neg fun isFree => Bool.false_ne_true (head isFree)

/-- In the order of the cautious search, what comes after a child that is not free is signed like it and
does not grow less, unless it cannot be satisfied. -/
private theorem bySignature_bound (items : List Outcomes) : (bySignature items).Pairwise fun i j =>
    ∃ x y, items[i]? = some x ∧ items[j]? = some y ∧
      (¬x.sat.isFree = true → y.sat.witness ≠ .impossible →
        ¬y.sat.isFree = true ∧ (compare x.growth y.growth).isLE = true) := by
  refine (bySignature_sorted items).imp ?_
  rintro i j ⟨x, y, foundX, foundY, before⟩
  refine ⟨x, y, foundX, foundY, fun bound there => ?_⟩
  obtain ⟨possible, unsigned, grows⟩ := before there
  have signedX : x.sat.hasSignature = true := by
    by_contra without
    exact bound (Satisfaction.isFree_iff.mpr ⟨Bool.eq_false_iff.mpr without, possible⟩)
  have signedY : y.sat.hasSignature = true := by
    by_contra without
    exact Bool.false_ne_true ((unsigned (Bool.eq_false_iff.mpr without)).symm.trans signedX)
  refine ⟨fun free => ?_, grows (signedX.trans signedY.symm)⟩
  exact Bool.false_ne_true ((Satisfaction.isFree_iff.mp free).1.symm.trans signedY)

/-- In the order of the cautious search it never helps to take a later child for an earlier one. -/
private theorem cautiousCost_sorted (items : List Outcomes) :
    (bySignature items).Pairwise fun i j => ∃ x y, items[i]? = some x ∧ items[j]? = some y ∧
      cautiousCost x true + cautiousCost y false ≤ cautiousCost x false + cautiousCost y true := by
  refine (bySignature_bound items).imp ?_
  rintro i j ⟨x, y, foundX, foundY, after⟩
  refine ⟨x, y, foundX, foundY, ?_⟩
  by_cases free : x.sat.isFree = true
  · rw [show cautiousCost x false = ⊤ from if_pos free, top_add]
    exact le_top
  by_cases none : y.sat.witness = .impossible
  · rw [show cautiousCost y true = ⊤ from congrArg Witness.cost none, add_top]
    exact le_top
  obtain ⟨bound, grows⟩ := after free none
  simp only [cautiousCost, if_neg free, if_neg bound]
  exact cost_exchange grows

/-- If no more than `k` children are free then the first `k` hold them all. -/
private theorem not_free_of_not_mem_take (forced : freeCount items ≤ k) {i : Nat}
    (left : i ∉ (bySignature items).take k) (o : Outcomes) (located : items[i]? = some o) :
    ¬o.sat.isFree = true := by
  intro isFree
  have free : freeAt items i = true := by simpa [freeAt, located] using isFree
  have inside : i < items.length := (List.getElem?_eq_some_iff.mp located).1
  have member := mem_drop_of_not_mem_take (bySignature_perm items) inside left
  have ordered := bySignature_pairwise items
  rw [← List.take_append_drop k (bySignature items), List.pairwise_append] at ordered
  rw [freeCount, ← countP_freeAt, ← List.take_append_drop k (bySignature items), List.countP_append,
    List.countP_eq_length.mpr fun j taken => ordered.2.2 j taken i member free] at forced
  have later : 0 < ((bySignature items).drop k).countP (freeAt items) :=
    List.countP_pos_iff.mpr ⟨i, member, free⟩
  have nonempty := List.length_pos_of_mem member
  rw [List.length_drop] at nonempty
  rw [List.length_take] at forced
  omega

/-- The marks of the children that the cautious search takes. -/
private def cautiousMarks (k : Nat) (items : List Outcomes) : List Bool :=
  (List.range items.length).map ((bySignature items).take k).contains

private theorem free_cautiousMarks (forced : freeCount items ≤ k) :
    List.Forall₂ (fun o mark => o.sat.isFree = true → mark = true) items (cautiousMarks k items) :=
  forall₂_contains (P := fun mark o => o.sat.isFree = true → mark = true) (fun _ _ _ _ _ => rfl)
    fun _ left o located isFree => absurd isFree (not_free_of_not_mem_take forced left o located)

/-- Whether all that is free is at hand, and of what is signed as much as is then missing from `k`. -/
def Obtainable (k : Nat) (items : List Outcomes) : Prop :=
  (∀ o ∈ items, o.sat.isFree = true → ∃ stack, o.sat.witness = .stack stack) ∧
    k - freeCount items ≤ items.countP fun o => o.sat.isSigned && o.sat.witness.isStack

/-- What is gathered is possible if each part is. -/
theorem gather_ne_impossible
    (each : List.Forall₂ (fun o mark => (o.pick mark).witness ≠ .impossible) items marks) :
    gather marks items ≠ .impossible := by
  have fold (upper : Witness) (possible : upper ≠ .impossible) :
      (List.zipWith (fun mark o => pick o mark) marks items).foldl
        (fun upper part => part.witness.below upper) upper ≠ .impossible := by
    induction each generalizing upper with
    | nil => exact possible
    | cons head _ ih =>
      exact ih _ fun none => (Witness.below_eq_impossible.mp none).elim head possible
  exact fold .empty nofun

/-- What is possible is free or signed. -/
private theorem countP_possible (items : List Outcomes) :
    items.countP (·.sat.witness != .impossible) = freeCount items + signedCount items := by
  rw [Satisfaction.countP_eq_free_add_signed (s := Outcomes.sat) fun o => bne_iff_ne.mp]
  simp [freeCount, signedCount, Satisfaction.isFree, Satisfaction.isSigned]

private theorem countP_isStack (items : List Outcomes) : items.countP (·.sat.witness.isStack) =
    items.countP (fun o => o.sat.isFree && o.sat.witness.isStack) +
      items.countP fun o => o.sat.isSigned && o.sat.witness.isStack :=
  Satisfaction.countP_eq_free_add_signed
    (fun o there none => by rw [none] at there; cases there) items

/-- What a cautious choice takes is at hand. -/
theorem CautiousSelection.obtainable (selected : CautiousSelection k items parts) :
    Obtainable k items := by
  obtain ⟨⟨found, count⟩, free⟩ := selected
  constructor
  · intro o member isFree
    have each := found.mp (S := fun o part => o.sat.isFree = true → o.sat.witness = .stack part.2)
      (fun o part picked taken isFree => by rwa [taken isFree] at picked) free
    obtain ⟨part, _, own⟩ := exists_of_mem_forall₂ each.flip member
    exact ⟨part.2, own isFree⟩
  · have marked : parts.countP Prod.fst ≤ items.countP (·.sat.witness.isStack) := by
      refine countP_le_of_forall₂ found fun o _ part _ picked yes => ?_
      rw [yes] at picked
      exact Witness.isStack_iff.mpr ⟨part.2, picked⟩
    rw [countP_isStack, count] at marked
    have fewer : items.countP (fun o => o.sat.isFree && o.sat.witness.isStack) ≤ freeCount items :=
      List.countP_mono_left (by simp +contextual)
    omega

/-- What the cautious search takes is a cautious choice, and no other one is smaller. -/
private theorem cautiousSelection_of_gather (few : k ≤ items.length)
    (forced : freeCount items ≤ k)
    (gathered : gather (cautiousMarks k items) items = .stack stack) :
    (∃ parts, CautiousSelection k items parts ∧ stack = layOut parts) ∧
      ∀ parts, CautiousSelection k items parts → witnessSize stack ≤ witnessSize (layOut parts) := by
  have permutes := bySignature_perm items
  have count : (cautiousMarks k items).countP id = k := count_contains_take permutes few
  have width : (cautiousMarks k items).length = items.length := by simp [cautiousMarks]
  have free := free_cautiousMarks forced
  constructor
  · obtain ⟨parts, found, same, shape⟩ := exists_parts_of_gather width gathered
    rw [← same, List.forall₂_map_right_iff] at free
    rw [← same, List.countP_map] at count
    exact ⟨parts, ⟨⟨found, count⟩, free⟩, shape⟩
  · rintro parts ⟨⟨found, count'⟩, free'⟩
    have exact : (parts.map Prod.fst).length = items.length := by
      rw [List.length_map, found.length_eq]
    have marked : (parts.map Prod.fst).countP id = k := by rw [List.countP_map]; exact count'
    have best := markedCost_take_le permutes (cautiousCost_sorted items) exact
    rw [marked] at best
    change markedCost cautiousCost (cautiousMarks k items) items ≤ _ at best
    rw [markedCost_cautious free, gathered,
      markedCost_cautious (List.forall₂_map_right_iff.mpr free'), gather_eq_layOut found] at best
    exact Nat.cast_le.mp best

section Cautious

variable (dissats : ∀ o ∈ items, ∃ stack, o.dissat.witness = .stack stack)

include dissats

/-- What is at hand comes before what is not. -/
private theorem bySignature_pairwise_isStack
    (free : ∀ o ∈ items, o.sat.isFree = true → ∃ stack, o.sat.witness = .stack stack) :
    (bySignature items).Pairwise fun i j => items[j]?.any (·.sat.witness.isStack) = true →
      items[i]?.any (·.sat.witness.isStack) = true := by
  refine (bySignature_bound items).imp ?_
  rintro i j ⟨x, y, foundX, foundY, after⟩ there
  rw [foundY, Option.any_some, Witness.isStack_iff] at there
  rw [foundX, Option.any_some, Witness.isStack_iff]
  by_cases isFree : x.sat.isFree = true
  · exact free x (List.mem_of_getElem? foundX) isFree
  -- A child whose satisfaction is missing would grow more than one that has both stacks.
  obtain ⟨stack, foundStack⟩ := there
  have le := cost_exchange (after isFree (by simp [foundStack])).2
  obtain ⟨lessX, dissatX⟩ := dissats x (List.mem_of_getElem? foundX)
  obtain ⟨lessY, dissatY⟩ := dissats y (List.mem_of_getElem? foundY)
  rw [dissatX, dissatY, foundStack] at le
  cases found : x.sat.witness with
  | stack items => exact ⟨items, rfl⟩
  | unavailable | impossible =>
    rw [found, show Witness.cost _ = ⊤ from rfl, top_add] at le
    exact absurd (top_le_iff.mp le) (by simp [← Nat.cast_add])

/-- If all that is needed is at hand then the first `k` children can be satisfied. -/
private theorem exists_gather_of_obtainable (obtainable : Obtainable k items) :
    ∃ stack, gather (cautiousMarks k items) items = .stack stack := by
  obtain ⟨free, signed⟩ := obtainable
  have enough : k ≤ items.countP (·.sat.witness.isStack) := by
    rw [countP_isStack]
    have all : items.countP (fun o => o.sat.isFree && o.sat.witness.isStack) =
        freeCount items := by
      refine List.countP_congr fun o member => ?_
      simpa using fun isFree => Witness.isStack_iff.mpr (free o member isFree)
    omega
  rw [← countP_positions (bySignature_perm items)] at enough
  have each : List.Forall₂ (fun o mark => (o.pick mark).witness.isStack = true) items (cautiousMarks k items) := by
    refine forall₂_contains (P := fun mark o => (o.pick mark).witness.isStack = true)
      (fun i taken o located => ?_) fun i _ o located => ?_
    · have there := forall_mem_take (bySignature_pairwise_isStack dissats free) enough taken
      rwa [located, Option.any_some] at there
    · exact Witness.isStack_iff.mpr (dissats o (List.mem_of_getElem? located))
  obtain ⟨parts, found, same⟩ := exists_parts_of_forall₂ each
  exact ⟨_, (congrArg (gather · items) same.symm).trans (gather_eq_layOut found)⟩

/-- What is taken is possible if enough is. -/
private theorem gather_cautious_ne_impossible
    (enough : k ≤ items.countP (·.sat.witness != .impossible)) :
    gather (cautiousMarks k items) items ≠ .impossible := by
  rw [← countP_positions (bySignature_perm items)] at enough
  refine gather_ne_impossible (forall₂_contains
    (P := fun mark o => (o.pick mark).witness ≠ .impossible) (fun i taken o located => ?_) ?_)
  · have possible := forall_mem_take (bySignature_pairwise_possible items) enough taken
    rwa [located, Option.any_some, bne_iff_ne] at possible
  · intro i _ o located none
    obtain ⟨stack, found⟩ := dissats o (List.mem_of_getElem? located)
    cases found.symm.trans none

end Cautious

/-- What the cautious search makes of a threshold whose children can all be dissatisfied. It is impossible
if fewer than `k` satisfactions are possible, and given up if more than `k` are free. Otherwise there is
a witness exactly if all that is free is at hand, with enough signatures besides. It takes all that is
free and the signed rest that makes the witness smallest. -/
theorem thresholdNonMalleable_exact (positive : 0 < k) (few : k ≤ items.length)
    (dissats : ∀ o ∈ items, ∃ stack, o.dissat.witness = .stack stack) :
    ((thresholdNonMalleable k items).witness = .impossible ↔ freeCount items + signedCount items < k) ∧
      (k ≤ freeCount items + signedCount items → k < freeCount items →
        (thresholdNonMalleable k items).witness = .unavailable) ∧
      (k ≤ freeCount items + signedCount items → freeCount items ≤ k →
        ((∃ stack, (thresholdNonMalleable k items).witness = .stack stack) ↔ Obtainable k items) ∧
        (¬Obtainable k items → (thresholdNonMalleable k items).witness = .unavailable) ∧
        ∀ stack, (thresholdNonMalleable k items).witness = .stack stack →
          (∃ parts, CautiousSelection k items parts ∧ stack = layOut parts) ∧
          ∀ parts, CautiousSelection k items parts → witnessSize stack ≤ witnessSize (layOut parts)) := by
  have possible := countP_possible items
  have shape (forced : freeCount items ≤ k) (enough : k ≤ freeCount items + signedCount items) :
      (thresholdNonMalleable k items).witness = gather (cautiousMarks k items) items := by
    have same := thresholdNonMalleable_eq positive few forced (possible ▸ enough)
    exact (congrArg Satisfaction.witness same).trans (combine_witness _ _)
  have unavailable (enough : k ≤ freeCount items + signedCount items) (more : k < freeCount items) :
      (thresholdNonMalleable k items).witness = .unavailable :=
    congrArg Satisfaction.witness (thresholdNonMalleable_unavailable positive few (possible ▸ enough) more)
  refine ⟨⟨fun none => ?_, fun fewer => ?_⟩, unavailable, fun enough forced => ?_⟩
  · by_contra bound
    have enough := Nat.le_of_not_lt bound
    rcases Nat.lt_or_ge k (freeCount items) with more | forced
    · cases (unavailable enough more).symm.trans none
    · exact gather_cautious_ne_impossible dissats (possible ▸ enough) ((shape forced enough).symm.trans none)
  · exact congrArg Satisfaction.witness (thresholdNonMalleable_impossible positive few (possible ▸ fewer))
  · have there : (∃ stack, gather (cautiousMarks k items) items = .stack stack) ↔ Obtainable k items := by
      refine ⟨fun ⟨stack, gathered⟩ => ?_, exists_gather_of_obtainable dissats⟩
      obtain ⟨⟨parts, selected, _⟩, _⟩ := cautiousSelection_of_gather few forced gathered
      exact selected.obtainable
    rw [shape forced enough]
    refine ⟨there, fun missing => ?_, fun stack gathered => cautiousSelection_of_gather few forced gathered⟩
    cases gathered : gather (cautiousMarks k items) items with
    | stack stack => exact absurd (there.mp ⟨stack, gathered⟩) missing
    | unavailable => rfl
    | impossible => exact absurd gathered (gather_cautious_ne_impossible dissats (possible ▸ enough))

/-- The free child is taken, and with it the shorter of two signatures. The longer one and the child that
cannot be satisfied are left. -/
theorem thresholdNonMalleable_exact_mixed :
    let items : List Outcomes := [
      ⟨.pushZero, ⟨.stack [[1, 2, 3]], true⟩⟩,
      ⟨.pushZero, ⟨.stack [[7, 7]], false⟩⟩,
      ⟨.pushZero, .impossible⟩,
      ⟨.pushZero, ⟨.stack [[4, 5]], true⟩⟩]
    let stack := [[], [7, 7], [], [4, 5]].reverse
    (0 < 2 ∧ 2 ≤ items.length ∧ ∀ o ∈ items, ∃ stack, o.dissat.witness = .stack stack) ∧
      (thresholdNonMalleable 2 items).witness = .stack stack ∧
      (∃ parts, CautiousSelection 2 items parts ∧ stack = layOut parts) ∧
      ∀ parts, CautiousSelection 2 items parts → 8 ≤ witnessSize (layOut parts) := by
  intro items stack
  have dissats : ∀ o ∈ items, ∃ stack, o.dissat.witness = .stack stack := by
    simp [items, Satisfaction.pushZero, Witness.pushZero]
  have found : (thresholdNonMalleable 2 items).witness = .stack stack := by
    rw [thresholdNonMalleable, bySignature_eq]
    decide +kernel
  have few : 2 ≤ items.length := by decide
  obtain ⟨_, _, settled⟩ := thresholdNonMalleable_exact (by decide) few dissats
  exact ⟨⟨by decide, few, dissats⟩, found, (settled (by decide) (by decide)).2.2 _ found⟩

end Outcomes

end LockScript
