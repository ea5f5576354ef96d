import LockScript.Proofs.Completeness
import LockScript.Proofs.Selection

/-! # The cheapest of all candidates

A condition leaves choices at its disjunctions and thresholds, and every combination of them gives a
candidate. The search decides at each fragment and keeps one stack for each answer. What it keeps is a
candidate whatever the policy; with the liberal policy it is one of least size, and it is missing only
where there is no candidate.

A missing witness costs more than any stack, so costs are numbers with an infinity. Then joining two
witnesses adds their costs, choosing takes the minimum, and a threshold is a matter of exchanging two
children.
-/

namespace LockScript

theorem witnessSize_append (first second : List Bytes) :
    witnessSize (first ++ second) = witnessSize first + witnessSize second :=
  sumOf_append elementSize first second

theorem witnessSize_reverse (items : List Bytes) : witnessSize items.reverse = witnessSize items := by
  induction items with
  | nil => rfl
  | cons item items ih =>
    rw [List.reverse_cons, witnessSize_append, ih, Nat.add_comm, ← witnessSize_append]
    rfl

namespace Witness

variable {P Q : List Bytes → Prop} {a b : Witness} {items : List Bytes}

/-- The bytes of a witness; without end where there is none. -/
def cost : Witness → ℕ∞
  | stack items => witnessSize items
  | unavailable | impossible => ⊤

@[simp] theorem cost_stack (items : List Bytes) : (stack items).cost = witnessSize items :=
  rfl

theorem cost_below (lower upper : Witness) : (lower.below upper).cost = lower.cost + upper.cost := by
  cases lower <;> cases upper <;> simp [below, cost, witnessSize_append]

theorem cost_cheaper_stack (first second : List Bytes) :
    ((stack first).cheaper (stack second)).cost = min (witnessSize first : ℕ∞) (witnessSize second) := by
  rw [cheaper]
  split
  next isLE =>
    rw [cost_stack, min_eq_left (Nat.cast_le.mpr (Nat.isLE_compare.mp isLE))]
  next bound =>
    have later : witnessSize second ≤ witnessSize first :=
      Nat.le_of_not_le fun le => bound (Nat.isLE_compare.mpr le)
    rw [cost_stack, min_eq_right (Nat.cast_le.mpr later)]

/-- No stack with a property, told with the top element first, is smaller than what was found. -/
def Undercuts (w : Witness) (P : List Bytes → Prop) : Prop :=
  ∀ taken, P taken → w.cost ≤ witnessSize taken

theorem undercuts_stack (items : List Bytes) : (stack items).Undercuts (· = items.reverse) := by
  rintro _ rfl
  rw [cost_stack, witnessSize_reverse]

theorem Undercuts.mono (under : a.Undercuts P) (imp : ∀ taken, Q taken → P taken) : a.Undercuts Q :=
  fun taken holds => under taken (imp taken holds)

theorem Undercuts.below (lower : a.Undercuts P) (upper : b.Undercuts Q) :
    (a.below b).Undercuts fun taken => ∃ first second, taken = first ++ second ∧ Q first ∧ P second := by
  rintro _ ⟨first, second, rfl, above, under⟩
  rw [cost_below, witnessSize_append, Nat.add_comm, Nat.cast_add]
  exact add_le_add (lower second under) (upper first above)

/-- If something with a property is there, then so is a stack that was found. -/
theorem Undercuts.exists_stack (under : a.Undercuts P) {taken : List Bytes} (holds : P taken) :
    ∃ items, a = .stack items ∧ witnessSize items ≤ witnessSize taken := by
  have le := under taken holds
  cases a with
  | stack items => exact ⟨items, rfl, Nat.cast_le.mp le⟩
  | unavailable | impossible => exact absurd (top_le_iff.mp le) (ENat.natCast_ne_top _)

end Witness

namespace Satisfaction

variable {P Q : List Bytes → Prop} {a b : Satisfaction}

theorem cost_cheaper (a b : Satisfaction) :
    (cheaper a b).witness.cost = min a.witness.cost b.witness.cost := by
  obtain ⟨first, _⟩ := a
  obtain ⟨second, _⟩ := b
  cases first with
  | unavailable | impossible => exact (min_eq_right le_top).symm
  | stack items =>
    cases second with
    | unavailable | impossible => exact (min_eq_left le_top).symm
    | stack items' => exact Witness.cost_cheaper_stack items items'

/-- The cheaper of two is smaller than anything that either could be. -/
theorem undercuts_cheaper (first : a.witness.Undercuts P) (second : b.witness.Undercuts Q) :
    (cheaper a b).witness.Undercuts fun taken => P taken ∨ Q taken := by
  intro taken holds
  rw [cost_cheaper]
  exact holds.elim (fun holds => min_le_of_left_le (first taken holds))
    fun holds => min_le_of_right_le (second taken holds)

end Satisfaction

namespace Outcomes

variable {items : List Outcomes} {k : Nat} {marks : List Bool}

/-- Saying yes to a child that grows less costs no more than saying yes to the other one. -/
theorem cost_exchange {a b : Outcomes} (before : (compare a.growth b.growth).isLE = true) :
    a.sat.witness.cost + b.dissat.witness.cost ≤ a.dissat.witness.cost + b.sat.witness.cost := by
  unfold growth at before
  cases dissatA : a.dissat.witness with
  | unavailable | impossible => exact le_of_le_of_eq le_top (top_add _).symm
  | stack less =>
    cases satB : b.sat.witness with
    | unavailable | impossible => exact le_of_le_of_eq le_top (add_top _).symm
    | stack more' =>
      -- The second child can be satisfied and the first one dissatisfied, so neither comes last or first.
      rw [dissatA, satB] at before
      cases satA : a.sat.witness with
      | unavailable | impossible =>
        rw [satA] at before
        cases dissatB : b.dissat.witness <;> rw [dissatB] at before <;> cases before
      | stack more =>
        rw [satA] at before
        cases dissatB : b.dissat.witness with
        | unavailable | impossible =>
          rw [dissatB] at before
          cases before
        | stack less' =>
          rw [dissatB] at before
          have smaller := Growth.le_of_isLE_bytes before
          simp only [Witness.cost_stack]
          norm_cast
          simp only [Int.ofNat_eq_natCast] at smaller
          omega

/-- The costs of the children add up. -/
theorem cost_gather (marks : List Bool) (items : List Outcomes) :
    (gather marks items).cost = markedCost (fun o mark => (o.pick mark).witness.cost) marks items := by
  have fold (parts : List Satisfaction) (upper : Witness) :
      (parts.foldl (fun upper part => part.witness.below upper) upper).cost =
        upper.cost + (parts.map (·.witness.cost)).sum := by
    induction parts generalizing upper with
    | nil => simp
    | cons part parts ih =>
      rw [List.foldl_cons, ih, Witness.cost_below, List.map_cons, List.sum_cons, ← add_assoc,
        add_comm upper.cost]
  rw [gather, fold, List.map_zipWith]
  exact zero_add _

/-- No choice of as many children costs less than the one that is taken. -/
theorem cost_threshold_le (positive : 0 < marks.countP id) (exact : marks.length = items.length) :
    (threshold .malleable (marks.countP id) items).witness.cost ≤ (gather marks items).cost := by
  have few : marks.countP id ≤ items.length := exact ▸ List.countP_le_length
  have sorted := (byGrowth_sorted items).imp (S := fun i j => ∃ x y, items[i]? = some x ∧
      items[j]? = some y ∧ (x.pick true).witness.cost + (y.pick false).witness.cost ≤
        (x.pick false).witness.cost + (y.pick true).witness.cost)
    fun ⟨x, y, foundX, foundY, before⟩ => ⟨x, y, foundX, foundY, cost_exchange before⟩
  rw [threshold, thresholdMalleable, if_neg (by omega), combine_witness, cost_gather, cost_gather]
  exact markedCost_take_le (byGrowth_perm items) sorted exact

end Outcomes

/-! ### Candidates

Which stacks could be given for each answer of a fragment, from those for its children. Stacks are told
with the top element first. -/

namespace Candidates

variable {κ : Type}

/-- A leaf has one stack at most for each answer. -/
def ofLeaf (o : Outcomes) : AnswerRel :=
  fun answer taken => (o.pick answer).witness = .stack taken.reverse

/-- The candidates of a wrapped fragment. -/
def wrap (wrapper : Wrapper) (x : AnswerRel) (answer : Bool) (taken : List Bytes) : Prop :=
  match wrapper with
  | .alt | .swap | .check | .zeroNotEqual => x answer taken
  | .dupIf => if answer then ∃ rest, taken = [1] :: rest ∧ x true rest else taken = [[]]
  | .verify => answer = true ∧ x true taken
  | .nonzero => if answer then x true taken else taken = [[]]

/-- The candidates of two joined fragments: one for every choice of a branch. -/
def pair (op : Connective) (x y : AnswerRel) (answer : Bool) (taken : List Bytes) : Prop :=
  match op with
  | .andV => AnswerRel.Both x y true answer taken
  | .andB => AnswerRel.Both x y answer answer taken
  | .orB =>
    if answer then AnswerRel.Both x y false true taken ∨ AnswerRel.Both x y true false taken
    else AnswerRel.Both x y false false taken
  | .orD => (answer = true ∧ x true taken) ∨ AnswerRel.Both x y false answer taken
  | .orC => answer = true ∧ (x true taken ∨ AnswerRel.Both x y false true taken)
  | .orI => ∃ rest, (taken = [1] :: rest ∧ x answer rest) ∨ (taken = [] :: rest ∧ y answer rest)

/-- The candidates of an `andor`. -/
def andOr (x y z : AnswerRel) (answer : Bool) (taken : List Bytes) : Prop :=
  (answer = true ∧ AnswerRel.Both x y true true taken) ∨ AnswerRel.Both x z false answer taken

/-- The candidates of a `thresh`: one for every choice of `k` children to satisfy, or of none. -/
def threshold (k : Nat) (items : List AnswerRel) (answer : Bool) (taken : List Bytes) : Prop :=
  ∃ parts : List (Bool × List Bytes),
    List.Forall₂ (fun x part => x part.1 part.2) items parts ∧ taken = parts.flatMap Prod.snd ∧
    parts.countP Prod.fst = if answer then k else 0

/-- The candidates of a fragment over those of its children, with what was found for its leaves. -/
def ofFragment (found : Leaf κ Digest → Outcomes) : Fragment κ Digest AnswerRel → AnswerRel
  | .leaf l => ofLeaf (found l)
  | .wrap w x => wrap w x
  | .pair op x y => pair op x y
  | .andOr x y z => andOr x y z
  | .thresh k items => threshold k items

end Candidates

namespace Condition

variable {κ α : Type} (found : Leaf κ Digest → Outcomes)

/-- All stacks that could be given for an answer of a condition, with what was found for its leaves. -/
def Candidates (t : Condition κ Digest α) : AnswerRel :=
  Traversal.bottomUp (fun x items => Candidates.ofFragment found (x.fragment.withChildren items)) t

theorem candidates_eq (t : Condition κ Digest α) :
    t.Candidates found = Candidates.ofFragment found (t.fragment.map (Candidates found)) :=
  bottomUp_fragment (Candidates.ofFragment found) t

@[simp] theorem candidates_leaf (note : α) (l : Leaf κ Digest) :
    (leaf note l).Candidates found = Candidates.ofLeaf (found l) :=
  candidates_eq found _

@[simp] theorem candidates_wrap (note : α) (w : Wrapper) (x : Condition κ Digest α) :
    (wrap note w x).Candidates found = Candidates.wrap w (x.Candidates found) :=
  candidates_eq found _

@[simp] theorem candidates_pair (note : α) (op : Connective) (x y : Condition κ Digest α) :
    (pair note op x y).Candidates found = Candidates.pair op (x.Candidates found) (y.Candidates found) :=
  candidates_eq found _

@[simp] theorem candidates_andOr (note : α) (x y z : Condition κ Digest α) :
    (andOr note x y z).Candidates found =
      Candidates.andOr (x.Candidates found) (y.Candidates found) (z.Candidates found) :=
  candidates_eq found _

@[simp] theorem candidates_thresh (note : α) (k : Nat) (items : List (Condition κ Digest α)) :
    (thresh note k items).Candidates found = Candidates.threshold k (items.map (Candidates found)) :=
  candidates_eq found _

/-- What holds of the selectors and of all that was found for leaves holds of each element of a candidate. -/
theorem Candidates.forall_mem {found : Leaf κ Digest → Outcomes} {P : Bytes → Prop} (empty : P []) (one : P [1])
    (leaves : ∀ l, (found l).Gives fun _ taken => ∀ element ∈ taken, P element) {t : Condition κ Digest α}
    {answer : Bool} {taken : List Bytes} (candidate : t.Candidates found answer taken) :
    ∀ element ∈ taken, P element := by
  induction t using Condition.induct generalizing answer taken with
  | leaf note l =>
    rw [candidates_leaf] at candidate
    simpa using (leaves l).pick answer _ candidate
  | wrap note w x ih =>
    rw [candidates_wrap] at candidate
    cases w with
    | alt | swap | check | zeroNotEqual => exact ih candidate
    | verify => exact ih candidate.2
    | dupIf =>
      cases answer with
      | true =>
        obtain ⟨rest, rfl, below⟩ := candidate
        exact List.forall_mem_cons.mpr ⟨one, ih below⟩
      | false =>
        cases candidate
        exact List.forall_mem_singleton.mpr empty
    | nonzero =>
      cases answer with
      | true => exact ih candidate
      | false =>
        cases candidate
        exact List.forall_mem_singleton.mpr empty
  | pair note op x y ihX ihY =>
    rw [candidates_pair] at candidate
    have both {first second : Bool} {taken : List Bytes}
        (run : AnswerRel.Both (x.Candidates found) (y.Candidates found) first second taken) :
        ∀ element ∈ taken, P element := by
      obtain ⟨upper, lower, rfl, left, right⟩ := run
      exact List.forall_mem_append.mpr ⟨ihX left, ihY right⟩
    cases op with
    | andV | andB => exact both candidate
    | orB =>
      cases answer with
      | true => exact candidate.elim both both
      | false => exact both candidate
    | orD => exact candidate.elim (fun left => ihX left.2) both
    | orC => exact candidate.2.elim ihX both
    | orI =>
      obtain ⟨rest, ⟨rfl, left⟩ | ⟨rfl, right⟩⟩ := candidate
      · exact List.forall_mem_cons.mpr ⟨one, ihX left⟩
      · exact List.forall_mem_cons.mpr ⟨empty, ihY right⟩
  | andOr note x y z ihX ihY ihZ =>
    rw [candidates_andOr] at candidate
    obtain ⟨_, upper, lower, rfl, left, right⟩ | ⟨upper, lower, rfl, left, right⟩ := candidate
    · exact List.forall_mem_append.mpr ⟨ihX left, ihY right⟩
    · exact List.forall_mem_append.mpr ⟨ihX left, ihZ right⟩
  | thresh note k items ih =>
    rw [candidates_thresh] at candidate
    obtain ⟨parts, runs, rfl, _⟩ := candidate
    intro element member
    obtain ⟨part, among, within⟩ := List.mem_flatMap.mp member
    rw [List.forall₂_map_left_iff] at runs
    obtain ⟨x, own, run⟩ := exists_of_mem_forall₂ runs among
    exact ih x own run element within

end Condition

namespace Outcomes

variable {policy : Policy} {o x y z : Outcomes} {relX relY relZ : AnswerRel} {items : List Outcomes}
  {rels : List AnswerRel} {k : Nat}

private theorem gives_selector (selector : Bytes) {s : Satisfaction} {P : List Bytes → Prop}
    (gives : s.witness.Gives P) :
    (s.select (.stack [selector])).witness.Gives fun taken => ∃ rest, taken = selector :: rest ∧ P rest := by
  refine (gives.below (Witness.gives_stack.mpr (rfl : _ = [selector]))).mono ?_
  rintro _ ⟨_, rest, rfl, rfl, holds⟩
  exact ⟨rest, rfl, holds⟩

theorem gives_ofLeaf (o : Outcomes) : o.Gives (Candidates.ofLeaf o) := by
  constructor <;>
  · intro items found
    rw [Candidates.ofLeaf, List.reverse_reverse]
    exact found

theorem Gives.wrap (gives : x.Gives relX) (w : Wrapper) : (wrap w x).Gives (Candidates.wrap w relX) := by
  have zero : Witness.pushZero.Gives (· = [[]]) := Witness.gives_stack.mpr rfl
  cases w with
  | alt | swap | check | zeroNotEqual => exact gives
  | dupIf => exact ⟨gives_selector [1] gives.sat, zero⟩
  | verify => exact ⟨gives.sat.mono fun _ holds => ⟨rfl, holds⟩, Witness.gives_impossible⟩
  | nonzero => exact ⟨gives.sat, zero⟩

theorem Gives.pair (first : x.Gives relX) (second : y.Gives relY) (op : Connective) :
    (pair policy op x y).Gives (Candidates.pair op relX relY) := by
  have both := first.both second
  cases op with
  | andV => exact ⟨both true true, both true false⟩
  | andB => exact ⟨both true true, both false false⟩
  | orB =>
    exact ⟨Satisfaction.gives_choose policy ((both false true).mono fun _ => .inl)
      ((both true false).mono fun _ => .inr), both false false⟩
  | orD =>
    exact ⟨Satisfaction.gives_choose policy (first.sat.mono fun _ holds => .inl ⟨rfl, holds⟩)
      ((both false true).mono fun _ => .inr), (both false false).mono fun _ => .inr⟩
  | orC =>
    exact ⟨Satisfaction.gives_choose policy (first.sat.mono fun _ holds => ⟨rfl, .inl holds⟩)
      ((both false true).mono fun _ holds => ⟨rfl, .inr holds⟩), Witness.gives_impossible⟩
  | orI =>
    have left (answer : Bool) : ((x.pick answer).select .pushOne).witness.Gives
        (Candidates.pair .orI relX relY answer) :=
      (gives_selector [1] (first.pick answer)).mono fun _ ⟨rest, holds⟩ => ⟨rest, .inl holds⟩
    have right (answer : Bool) : ((y.pick answer).select .pushZero).witness.Gives
        (Candidates.pair .orI relX relY answer) :=
      (gives_selector [] (second.pick answer)).mono fun _ ⟨rest, holds⟩ => ⟨rest, .inr holds⟩
    exact ⟨Satisfaction.gives_choose policy (left true) (right true),
      Satisfaction.gives_cheaper (left false) (right false)⟩

theorem Gives.andOr (first : x.Gives relX) (second : y.Gives relY) (third : z.Gives relZ) :
    (andOr policy x y z).Gives (Candidates.andOr relX relY relZ) :=
  ⟨Satisfaction.gives_choose policy ((first.both second true true).mono fun _ holds => .inl ⟨rfl, holds⟩)
    ((first.both third false true).mono fun _ => .inr), (first.both third false false).mono fun _ => .inr⟩

theorem gives_thresh (k : Nat) (each : List.Forall₂ Gives items rels) :
    (thresh policy k items).Gives (Candidates.threshold k rels) := by
  have fits (answer : Bool) {marks : List Bool} (exact : marks.length = items.length)
      (count : marks.countP id = if answer then k else 0) :
      (gather marks items).Gives (Candidates.threshold k rels answer) := by
    refine (gives_gather each exact).mono ?_
    rintro _ ⟨parts, found, rfl, rfl⟩
    exact ⟨parts, found, rfl, by rwa [List.countP_map] at count⟩
  constructor
  · intro stack found
    obtain ⟨marks, exact, count, gathered⟩ := threshold_eq_stack found
    exact fits true exact count stack gathered
  · rw [thresh_dissat_witness]
    exact fits false List.length_replicate (by simp [List.countP_replicate])

/-- No candidate is smaller than what was found for the answer. -/
structure Undercuts (o : Outcomes) (rel : AnswerRel) : Prop where
  sat : o.sat.witness.Undercuts (rel true)
  dissat : o.dissat.witness.Undercuts (rel false)

theorem Undercuts.pick (under : o.Undercuts relX) (answer : Bool) :
    (o.pick answer).witness.Undercuts (relX answer) := by
  cases answer
  · exact under.dissat
  · exact under.sat

theorem Undercuts.both (first : x.Undercuts relX) (second : y.Undercuts relY) (answerX answerY : Bool) :
    ((y.pick answerY).below (x.pick answerX)).witness.Undercuts
      (AnswerRel.Both relX relY answerX answerY) :=
  (second.pick answerY).below (first.pick answerX)

private theorem undercuts_selector (selector : Bytes) {s : Satisfaction} {P : List Bytes → Prop}
    (under : s.witness.Undercuts P) :
    (s.select (.stack [selector])).witness.Undercuts fun taken =>
      ∃ rest, taken = selector :: rest ∧ P rest := by
  refine (under.below (Witness.undercuts_stack [selector])).mono ?_
  rintro _ ⟨rest, rfl, holds⟩
  exact ⟨[selector], rest, rfl, rfl, holds⟩

theorem undercuts_ofLeaf (o : Outcomes) : o.Undercuts (Candidates.ofLeaf o) := by
  have pick (answer : Bool) : (o.pick answer).witness.Undercuts (Candidates.ofLeaf o answer) := by
    intro taken found
    rw [found, Witness.cost_stack, witnessSize_reverse]
  exact ⟨pick true, pick false⟩

theorem Undercuts.wrap (under : x.Undercuts relX) (w : Wrapper) :
    (wrap w x).Undercuts (Candidates.wrap w relX) := by
  have zero : Witness.pushZero.Undercuts (· = [[]]) := Witness.undercuts_stack [[]]
  cases w with
  | alt | swap | check | zeroNotEqual => exact under
  | dupIf => exact ⟨undercuts_selector [1] under.sat, zero⟩
  | verify => exact ⟨under.sat.mono fun _ holds => holds.2, fun _ holds => nomatch holds.1⟩
  | nonzero => exact ⟨under.sat, zero⟩

theorem Undercuts.pair (first : x.Undercuts relX) (second : y.Undercuts relY) (op : Connective) :
    (pair .malleable op x y).Undercuts (Candidates.pair op relX relY) := by
  have both := first.both second
  cases op with
  | andV => exact ⟨both true true, both true false⟩
  | andB => exact ⟨both true true, both false false⟩
  | orB => exact ⟨Satisfaction.undercuts_cheaper (both false true) (both true false), both false false⟩
  | orD =>
    exact ⟨(Satisfaction.undercuts_cheaper first.sat (both false true)).mono fun _ holds =>
      holds.imp_left And.right, (both false false).mono fun _ holds => holds.resolve_left nofun⟩
  | orC =>
    exact ⟨(Satisfaction.undercuts_cheaper first.sat (both false true)).mono fun _ holds => holds.2,
      fun _ holds => nomatch holds.1⟩
  | orI =>
    have either (answer : Bool) : (Satisfaction.cheaper ((x.pick answer).select .pushOne)
        ((y.pick answer).select .pushZero)).witness.Undercuts (Candidates.pair .orI relX relY answer) := by
      refine (Satisfaction.undercuts_cheaper (undercuts_selector [1] (first.pick answer))
        (undercuts_selector [] (second.pick answer))).mono ?_
      rintro _ ⟨rest, holds⟩
      exact holds.imp (⟨rest, ·⟩) (⟨rest, ·⟩)
    exact ⟨either true, either false⟩

theorem Undercuts.andOr (first : x.Undercuts relX) (second : y.Undercuts relY)
    (third : z.Undercuts relZ) : (andOr .malleable x y z).Undercuts (Candidates.andOr relX relY relZ) :=
  ⟨(Satisfaction.undercuts_cheaper (first.both second true true) (first.both third false true)).mono
    fun _ holds => holds.imp_left And.right,
    (first.both third false false).mono fun _ holds => holds.resolve_left nofun⟩

/-- The children together are smaller than any candidates for the same answers. -/
theorem undercuts_gather (each : List.Forall₂ Undercuts items rels) {parts : List (Bool × List Bytes)}
    (found : List.Forall₂ (fun x part => x part.1 part.2) rels parts) :
    (gather (parts.map Prod.fst) items).cost ≤ witnessSize (parts.flatMap Prod.snd) := by
  rw [cost_gather, markedCost]
  induction each generalizing parts with
  | nil => simp
  | @cons o rel items rels head _ ih =>
    cases found with
    | cons first rest =>
      rw [List.map_cons, List.zipWith_cons_cons, List.sum_cons, List.flatMap_cons, witnessSize_append,
        Nat.cast_add]
      exact add_le_add (head.pick _ _ first) (ih rest)

theorem undercuts_thresh (positive : 0 < k) (each : List.Forall₂ Undercuts items rels) :
    (thresh .malleable k items).Undercuts (Candidates.threshold k rels) := by
  constructor
  · rintro _ ⟨parts, found, rfl, count⟩
    have exact : (parts.map Prod.fst).length = items.length := by
      rw [List.length_map, ← found.length_eq, each.length_eq]
    have marked : (parts.map Prod.fst).countP id = k := by rw [List.countP_map]; exact count
    refine le_trans ?_ (undercuts_gather each found)
    have best := cost_threshold_le (marked ▸ positive) exact
    rwa [marked] at best
  · rintro _ ⟨parts, found, rfl, count⟩
    have exact : parts.length = items.length := by rw [← found.length_eq, each.length_eq]
    have none : parts.map Prod.fst = List.replicate items.length false := by
      refine List.eq_replicate_iff.mpr ⟨by rw [List.length_map, exact], List.forall_mem_map.mpr ?_⟩
      exact fun part member => Bool.eq_false_iff.mpr (List.countP_eq_zero.mp count part member)
    rw [thresh_dissat_witness, ← none]
    exact undercuts_gather each found

end Outcomes

namespace Search

variable {κ : Type} [PublicKey κ] (search : Search κ)

/-- What is found is a candidate, whatever the policy. -/
theorem gives_candidates (t : Typed κ Digest) :
    (search.outcomes t).Gives (t.Candidates search.ofLeaf) := by
  induction t using Typed.induct with
  | leaf note l =>
    rw [outcomes_leaf, Condition.candidates_leaf]
    exact Outcomes.gives_ofLeaf _
  | wrap note w x ih =>
    rw [outcomes_wrap, Condition.candidates_wrap]
    exact ih.wrap w
  | pair note op x y ihX ihY =>
    rw [outcomes_pair, Condition.candidates_pair]
    exact ihX.pair ihY op
  | andOr note x y z ihX ihY ihZ =>
    rw [outcomes_andOr, Condition.candidates_andOr]
    exact ihX.andOr ihY ihZ
  | thresh note k items ih =>
    rw [outcomes_thresh, Condition.candidates_thresh]
    refine Outcomes.gives_thresh k ?_
    rw [List.forall₂_map_left_iff, List.forall₂_map_right_iff, List.forall₂_same]
    exact ih

/-- With the liberal policy no candidate is smaller than what is found. -/
theorem undercuts_candidates {context : Context} {t : Typed κ Digest}
    (policy : search.policy = .malleable) (valid : Typed.Validated context t) :
    (search.outcomes t).Undercuts (t.Candidates search.ofLeaf) := by
  induction t using Typed.induct with
  | leaf note l =>
    rw [outcomes_leaf, Condition.candidates_leaf]
    exact Outcomes.undercuts_ofLeaf _
  | wrap note w x ih =>
    rw [outcomes_wrap, Condition.candidates_wrap]
    exact (ih valid.wrap.1).wrap w
  | pair note op x y ihX ihY =>
    rw [outcomes_pair, Condition.candidates_pair, policy]
    exact (ihX valid.pair.1).pair (ihY valid.pair.2.1) op
  | andOr note x y z ihX ihY ihZ =>
    obtain ⟨validX, validY, validZ, _⟩ := valid.andOr
    rw [outcomes_andOr, Condition.candidates_andOr, policy]
    exact (ihX validX).andOr (ihY validY) (ihZ validZ)
  | thresh note k items ih =>
    obtain ⟨validBelow, positive, _⟩ := valid.thresh
    rw [outcomes_thresh, Condition.candidates_thresh, policy]
    refine Outcomes.undercuts_thresh positive ?_
    rw [List.forall₂_map_left_iff, List.forall₂_map_right_iff, List.forall₂_same]
    exact fun x member => ih x member (validBelow x member)

end Search

namespace Typed

variable {κ : Type} [PublicKey κ] {context : Context} {t : Typed κ Digest} {material : Material κ}

/-- The liberal search fails only if there is no candidate, and its witness is a candidate of least
size. What the cautious search finds is a candidate too, and so no smaller. -/
theorem Validated.satisfy_malleable_least (valid : Validated context t) :
    let candidate := t.Candidates (t.search context .malleable material).ofLeaf true
    ((∃ witness, t.satisfy context .malleable material = .ok witness) ↔ ∃ taken, candidate taken) ∧
      ∀ witness, t.satisfy context .malleable material = .ok witness →
        candidate witness.reverse ∧
        (∀ taken, candidate taken → witnessSize witness ≤ witnessSize taken) ∧
        ∀ cautious, t.satisfy context .nonMalleable material = .ok cautious →
          candidate cautious.reverse ∧ witnessSize witness ≤ witnessSize cautious := by
  intro candidate
  have gives : ((t.search context .malleable material).outcomes t).sat.witness.Gives candidate :=
    ((t.search context .malleable material).gives_candidates t).sat
  have gives' : ((t.search context .nonMalleable material).outcomes t).sat.witness.Gives candidate :=
    ((t.search context .nonMalleable material).gives_candidates t).sat
  have under : ((t.search context .malleable material).outcomes t).sat.witness.Undercuts candidate :=
    ((t.search context .malleable material).undercuts_candidates rfl valid).sat
  simp only [satisfy_eq_ok]
  refine ⟨⟨fun ⟨witness, found⟩ => ⟨_, gives witness found⟩, fun ⟨taken, holds⟩ => ?_⟩,
    fun witness found => ?_⟩
  · obtain ⟨items, found, _⟩ := under.exists_stack holds
    exact ⟨items, found⟩
  · have least (taken : List Bytes) (holds : candidate taken) :
        witnessSize witness ≤ witnessSize taken := by
      have le := under taken holds
      rwa [found, Witness.cost_stack, Nat.cast_le] at le
    refine ⟨gives witness found, least, fun cautious found' => ?_⟩
    have holds := gives' cautious found'
    exact ⟨holds, witnessSize_reverse cautious ▸ least _ holds⟩

/-- One signature costs less than another one with a secret, and both are candidates. -/
theorem Validated.satisfy_malleable_least_keyOrSecret :
    ∃ (t : Typed PointKey Digest) (material : Material PointKey), Validated .segwit t ∧
      t.satisfy .segwit .malleable material = .ok [[8]] ∧
      t.Candidates (t.search .segwit .malleable material).ofLeaf true [[], [7], List.replicate 32 5] ∧
      ∀ taken, t.Candidates (t.search .segwit .malleable material).ofLeaf true taken →
        witnessSize [[8]] ≤ witnessSize taken := by
  let first : PointKey := ⟨false, Vector.replicate 32 1⟩
  let digest : Digest := ⟨.sha256, List.replicate 32 3, rfl⟩
  let t : Typed PointKey Digest := keyOrSecret .segwit first ⟨false, Vector.replicate 32 2⟩ digest
  let material : Material PointKey := { Material.none with
    ecdsa := fun key => if key = first then some [8] else some [7]
    secret := fun _ => some (Vector.replicate 32 5) }
  have valid : Validated .segwit t := validated_keyOrSecret rfl rfl
  have found : t.satisfy .segwit .malleable material = .ok [[8]] := by decide +kernel
  have other : t.Candidates (t.search .segwit .malleable material).ofLeaf true
      [[], [7], List.replicate 32 5] := by
    simp only [t, keyOrSecret, pk, ofFragment, Condition.node, Condition.candidates_pair,
      Condition.candidates_wrap, Condition.candidates_leaf]
    refine .inr ⟨[[]], [[7], List.replicate 32 5], rfl, ?_, [[7]], [List.replicate 32 5], rfl, ⟨rfl, ?_⟩, ?_⟩
    · rfl
    · rfl
    · rfl
  exact ⟨t, material, valid, found, other, (valid.satisfy_malleable_least.2 _ found).2.1⟩

end Typed

end LockScript
