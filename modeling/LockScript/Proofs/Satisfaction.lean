import LockScript.Proofs.Material
import LockScript.Proofs.Selection

/-! # Found witnesses are accepted

A search gives every fragment a satisfaction and a dissatisfaction, put together from those of its
children. From genuine material the first are stacks on which the fragment answers yes and the second
ones on which it answers no, so what is found for the whole is accepted by its script. Which of several
stacks is taken makes no difference here.
-/

namespace LockScript

namespace Witness

/-- If a stack was found, it has a property, told with the top element first. -/
def Gives (w : Witness) (P : List Bytes → Prop) : Prop :=
  ∀ items, w = .stack items → P items.reverse

variable {P Q : List Bytes → Prop} {a b : Witness} {items : List Bytes}

theorem gives_stack : (stack items).Gives P ↔ P items.reverse :=
  ⟨fun gives => gives items rfl, by rintro holds _ ⟨⟩; exact holds⟩

theorem gives_impossible : impossible.Gives P :=
  nofun

theorem gives_unavailable : unavailable.Gives P :=
  nofun

theorem Gives.mono (gives : a.Gives P) (imp : ∀ taken, P taken → Q taken) : a.Gives Q :=
  fun items found => imp _ (gives items found)

theorem below_eq_stack : a.below b = .stack items ↔
    ∃ lower upper, a = .stack lower ∧ b = .stack upper ∧ items = lower ++ upper := by
  cases a <;> cases b <;> simp [below, eq_comm]

/-- The first of two witnesses is below the second, so its elements are taken last. -/
theorem Gives.below (lower : a.Gives P) (upper : b.Gives Q) :
    (a.below b).Gives fun taken => ∃ first second, taken = first ++ second ∧ Q first ∧ P second := by
  intro items found
  obtain ⟨lowest, highest, rfl, rfl, rfl⟩ := below_eq_stack.mp found
  exact ⟨highest.reverse, lowest.reverse, List.reverse_append, upper _ rfl, lower _ rfl⟩

theorem cheaper_eq (a b : Witness) : a.cheaper b = a ∨ a.cheaper b = b := by
  unfold cheaper
  split
  · exact .inl rfl
  · exact .inr rfl

end Witness

namespace Satisfaction

variable {P Q : List Bytes → Prop} {a b s : Satisfaction}

theorem cheaper_witness_eq (a b : Satisfaction) :
    (cheaper a b).witness = a.witness ∨ (cheaper a b).witness = b.witness := by
  unfold cheaper
  split
  · exact .inr rfl
  · exact .inr rfl
  · exact .inl rfl
  · exact .inl rfl
  · exact Witness.cheaper_eq a.witness b.witness

/-- Beside the selector of a `0`, that of any other branch takes more bytes. -/
theorem cheaper_zero (s : Satisfaction) :
    (cheaper (s.select .pushOne) ⟨.pushZero, false⟩).witness = .pushZero := by
  rcases s with ⟨items | _ | _, signed⟩
  · have more : witnessSize [[]] < witnessSize (items ++ [[1]]) := by
      rw [witnessSize, witnessSize, sumOf_append]
      exact Nat.lt_add_left _ (by decide)
    change (if (compare (witnessSize (items ++ [[1]])) (witnessSize [[]])).isLE then _ else _) = _
    rw [if_neg (by simpa [Nat.isLE_compare] using more)]
  · rfl
  · rfl

theorem gives_cheaper (first : a.witness.Gives P) (second : b.witness.Gives P) :
    (cheaper a b).witness.Gives P := by
  obtain same | same := cheaper_witness_eq a b <;> rw [same] <;> assumption

theorem gives_cheaperNonMalleable (first : a.witness.Gives P) (second : b.witness.Gives P) :
    (cheaperNonMalleable a b).witness.Gives P := by
  unfold cheaperNonMalleable
  split
  · exact second
  split
  · exact first
  split
  · exact Witness.gives_unavailable
  · exact first
  · exact second
  · change (a.witness.cheaper b.witness).Gives P
    rcases Witness.cheaper_eq a.witness b.witness with same | same <;> rw [same] <;> assumption

theorem gives_choose (policy : Policy) (first : a.witness.Gives P) (second : b.witness.Gives P) :
    (choose policy a b).witness.Gives P := by
  cases policy with
  | nonMalleable => exact gives_cheaperNonMalleable first second
  | malleable => exact gives_cheaper first second

end Satisfaction

namespace Growth

/-- The kind of a cost, and the bytes that it stands for. -/
private def rank : Growth → Nat × Int
  | forced => (0, 0)
  | bytes difference => (1, difference)
  | missing => (2, 0)

private theorem compare_eq (a b : Growth) :
    compare a b = compareLex (compareOn fun g => (rank g).1) (compareOn fun g => (rank g).2) a b := by
  cases a with
  | bytes difference =>
    cases b with
    | bytes difference' => exact Ordering.then_eq
    | forced | missing => rfl
  | forced | missing => cases b <;> rfl

instance : Std.TransOrd Growth := by
  have same : (compare : Growth → Growth → Ordering) =
      compareLex (compareOn fun g => (rank g).1) (compareOn fun g => (rank g).2) :=
    funext fun a => funext fun b => compare_eq a b
  rw [Std.TransOrd, same]
  infer_instance

end Growth

namespace AnswerRel

/-- Something holds of a yes, and of a no if it matters. -/
def Where (matters : Prop) (rel : AnswerRel) : AnswerRel :=
  fun answer taken => (answer = true ∨ matters) → rel answer taken

/-- Two children that ran one after the other, each with an answer that matters. -/
theorem Both.of_where {mattersX mattersY : Prop} {relX relY : AnswerRel} {first second : Bool}
    {taken : List Bytes} (runs : Both (Where mattersX relX) (Where mattersY relY) first second taken)
    (mayX : first = true ∨ mattersX) (mayY : second = true ∨ mattersY) :
    Both relX relY first second taken := by
  obtain ⟨upper, lower, rfl, runX, runY⟩ := runs
  exact ⟨upper, lower, rfl, runX mayX, runY mayY⟩

end AnswerRel

namespace Outcomes

/-- The stacks that were found are ones on which a fragment gives the answers they are meant for. -/
structure Gives (o : Outcomes) (rel : AnswerRel) : Prop where
  sat : o.sat.witness.Gives (rel true)
  dissat : o.dissat.witness.Gives (rel false)

variable {o x y : Outcomes} {rel relX relY : AnswerRel}

/-- What was found for one of the two answers. -/
def pick (o : Outcomes) (answer : Bool) : Satisfaction :=
  if answer then o.sat else o.dissat

theorem Gives.pick (gives : o.Gives rel) (answer : Bool) :
    (o.pick answer).witness.Gives (rel answer) := by
  cases answer
  · exact gives.dissat
  · exact gives.sat

theorem Gives.both (first : x.Gives relX) (second : y.Gives relY) (answerX answerY : Bool) :
    ((y.pick answerY).below (x.pick answerX)).witness.Gives
      (AnswerRel.Both relX relY answerX answerY) :=
  (second.pick answerY).below (first.pick answerX)

/-- The children of a threshold one after the other, each with the answer that is marked for it. -/
def gather (marks : List Bool) (items : List Outcomes) : Witness :=
  (List.zipWith (fun mark o => pick o mark) marks items).foldl
    (fun upper part => part.witness.below upper) .empty

theorem gives_gather {rels : List AnswerRel} {items : List Outcomes} {marks : List Bool}
    (gives : List.Forall₂ Gives items rels) (exact : marks.length = items.length) :
    (gather marks items).Gives fun taken => ∃ parts : List (Bool × List Bytes),
      List.Forall₂ (fun rel part => rel part.1 part.2) rels parts ∧
        taken = parts.flatMap Prod.snd ∧ parts.map Prod.fst = marks := by
  have fold (upper : Witness) (stack : List Bytes)
      (found : (List.zipWith (fun mark o => pick o mark) marks items).foldl
        (fun upper part => part.witness.below upper) upper = .stack stack) :
      ∃ (above : List Bytes) (parts : List (Bool × List Bytes)), upper = .stack above ∧
        List.Forall₂ (fun rel part => rel part.1 part.2) rels parts ∧
        stack.reverse = above.reverse ++ parts.flatMap Prod.snd ∧ parts.map Prod.fst = marks := by
    induction gives generalizing marks upper with
    | nil =>
      obtain rfl := List.length_eq_zero_iff.mp exact
      exact ⟨stack, [], found, .nil, by simp, rfl⟩
    | @cons o rel items rels head _ ih =>
      obtain ⟨mark, marks, rfl⟩ := List.exists_cons_of_length_eq_add_one exact
      obtain ⟨_, parts, first, answers, rfl', same⟩ := ih (Nat.succ.inj exact) _ found
      obtain ⟨own, above, piece, rfl, rfl⟩ := Witness.below_eq_stack.mp first
      exact ⟨above, (mark, own.reverse) :: parts, rfl, .cons (head.pick mark own piece) answers,
        by simpa using rfl', by simp [same]⟩
  intro stack found
  obtain ⟨above, parts, empty, answers, shape, same⟩ := fold .empty stack found
  cases empty
  exact ⟨parts, answers, by simpa using shape, same⟩

variable {items : List Outcomes} {chosen : List Nat} {k : Nat}

private theorem map_zipIdx_eq_zipWith (chosen : List Nat) (items : List Outcomes) (start : Nat) :
    ((items.zipIdx start).map fun (o, i) => if chosen.contains i then o.sat else o.dissat) =
      List.zipWith (fun mark o => pick o mark)
        ((List.range' start items.length).map chosen.contains) items := by
  induction items generalizing start with
  | nil => rfl
  | cons o items ih =>
    rw [List.zipIdx_cons, List.map_cons, ih, List.length_cons, List.range'_succ, List.map_cons,
      List.zipWith_cons_cons]
    rfl

theorem combine_witness (chosen : List Nat) (items : List Outcomes) :
    (combine chosen items).witness =
      gather ((List.range items.length).map chosen.contains) items := by
  rw [combine, gather, List.range_eq_range', map_zipIdx_eq_zipWith]

theorem thresh_dissat_witness (policy : Policy) (k : Nat) (items : List Outcomes) :
    (thresh policy k items).dissat.witness = gather (List.replicate items.length false) items := by
  have fold (upper : Satisfaction) :
      (items.foldl (fun upper o => o.dissat.below upper) upper).witness =
        (List.zipWith (fun mark o => pick o mark) (List.replicate items.length false) items).foldl
          (fun upper part => part.witness.below upper) upper.witness := by
    induction items generalizing upper with
    | nil => rfl
    | cons o items ih => exact ih _
  exact fold .trivial

/-- As many children are marked as positions were chosen. -/
theorem count_contains {n : Nat} (distinct : chosen.Nodup) (inRange : ∀ i ∈ chosen, i < n) :
    ((List.range n).map chosen.contains).countP id = chosen.length := by
  rw [List.countP_map, Function.id_comp, List.countP_eq_length_filter]
  refine List.Perm.length_eq ((List.perm_ext_iff_of_nodup (List.nodup_range.filter _) distinct).mpr ?_)
  intro i
  simp only [List.mem_filter, List.mem_range, List.contains_iff_mem]
  exact ⟨And.right, fun member => ⟨inRange i member, member⟩⟩

/-- What the cautious search sorts children by. -/
def signatureKey (o : Outcomes) : Bool × Bool × Growth :=
  (o.sat.witness == .impossible, o.sat.hasSignature, o.growth)

/-- Those that can be satisfied come first, then those without a signature, then those that grow less. -/
def signatureOrder : Bool × Bool × Growth → Bool × Bool × Growth → Ordering :=
  compareLex (compareOn (·.1)) (compareLex (compareOn (·.2.1)) (compareOn (·.2.2)))

instance : Std.TransCmp signatureOrder :=
  inferInstanceAs (Std.TransCmp (compareLex _ _))

theorem byGrowth_eq (items : List Outcomes) : byGrowth items =
    ((items.zipIdx.map fun (o, i) => (o.growth, i)).insertionSort
      fun a b => (compare a.1 b.1).isLE = true).map Prod.snd :=
  congrArg (List.map Prod.snd) (mergeSort_isLE Prod.fst compare _)

theorem bySignature_eq (items : List Outcomes) : bySignature items =
    ((items.zipIdx.map fun (o, i) => (signatureKey o, i)).insertionSort
      fun a b => (signatureOrder a.1 b.1).isLE = true).map Prod.snd :=
  congrArg (List.map Prod.snd) (mergeSort_isLE Prod.fst signatureOrder _)

theorem byGrowth_perm (items : List Outcomes) :
    (byGrowth items).Perm (List.range items.length) := by
  rw [byGrowth, List.range_eq_range', ← List.zipIdx_map_snd 0 items]
  refine ((List.mergeSort_perm _ _).map Prod.snd).trans ?_
  rw [List.map_map]
  rfl

theorem bySignature_perm (items : List Outcomes) :
    (bySignature items).Perm (List.range items.length) := by
  rw [bySignature, List.range_eq_range', ← List.zipIdx_map_snd 0 items]
  refine ((List.mergeSort_perm _ _).map Prod.snd).trans ?_
  rw [List.map_map]
  rfl

/-- Satisfying the first `k` children in some order marks `k` of them. -/
theorem count_contains_take {order : List Nat} (permutes : order.Perm (List.range items.length))
    (few : k ≤ items.length) :
    ((List.range items.length).map (order.take k).contains).countP id = k := by
  have length : order.length = items.length := by simpa using permutes.length_eq
  have inRange (i : Nat) (member : i ∈ order.take k) : i < items.length :=
    List.mem_range.mp (permutes.subset (List.mem_of_mem_take member))
  refine (count_contains ?_ inRange).trans ?_
  · exact (permutes.nodup_iff.mpr List.nodup_range).sublist (List.take_sublist k order)
  · rw [List.length_take, length, Nat.min_eq_left few]

/-- A position that is not among the first `k` of an order comes later in it. -/
theorem mem_drop_of_not_mem_take {order : List Nat} (permutes : order.Perm (List.range items.length))
    {i : Nat} (inside : i < items.length) (left : i ∉ order.take k) : i ∈ order.drop k := by
  have member := permutes.mem_iff.mpr (List.mem_range.mpr inside)
  rw [← List.take_append_drop k order] at member
  exact (List.mem_append.mp member).resolve_left left

/-- If there is a stack then it is gathered from the first `k` children in some order. -/
theorem combine_take {order : List Nat} (permutes : order.Perm (List.range items.length))
    (few : k ≤ items.length) {stack : List Bytes}
    (found : (combine (order.take k) items).witness = .stack stack) :
    let marks := (List.range items.length).map (order.take k).contains
    marks.length = items.length ∧ marks.countP id = k ∧ gather marks items = .stack stack :=
  ⟨by simp, count_contains_take permutes few, (combine_witness _ _).symm.trans found⟩

/-- Whatever the policy, a threshold is satisfied through exactly `k` of its children. -/
theorem threshold_eq_stack {policy : Policy} {stack : List Bytes}
    (found : (threshold policy k items).witness = .stack stack) :
    ∃ marks : List Bool, marks.length = items.length ∧ marks.countP id = k ∧
      gather marks items = .stack stack := by
  cases policy with
  | nonMalleable =>
    simp only [threshold, thresholdNonMalleable] at found
    split at found
    next => cases found
    next inRange =>
      split at found
      next => cases found
      next =>
        split at found
        next => cases found
        next => exact ⟨_, combine_take (bySignature_perm items) (by omega) found⟩
  | malleable =>
    simp only [threshold, thresholdMalleable] at found
    split at found
    next => cases found
    next inRange => exact ⟨_, combine_take (byGrowth_perm items) (by omega) found⟩

end Outcomes

/-- The top element of two that run one after the other is that of the first one to take any. -/
theorem Input.Allows.nonempty_sequence {x y : Input} {upper lower : List Bytes} (allowed : x.Allows upper)
    (above : x.isNonzero = true → upper.head? ≠ some []) (below : y.isNonzero = true → lower.head? ≠ some [])
    (nonzero : (x.sequence y).isNonzero = true) : (upper ++ lower).head? ≠ some [] := by
  cases x with
  | zero =>
    obtain rfl := allowed
    exact below nonzero
  | one | any => cases y <;> cases nonzero
  | oneNonzero =>
    obtain ⟨element, rfl⟩ := List.length_eq_one_iff.mp allowed
    exact above rfl
  | anyNonzero =>
    obtain ⟨element, others, rfl⟩ := List.exists_cons_of_ne_nil allowed
    exact above rfl

/-- Elements whose sizes can be read, the top one not empty if that is said of a yes. -/
structure Input.Proper (input : Input) (answer : Bool) (taken : List Bytes) : Prop where
  short : ∀ element ∈ taken, element.length < 2 ^ 39
  nonempty : answer = true → input.isNonzero = true → taken.head? ≠ some []

namespace Input.Proper

variable {x y input : Input} {answer first second : Bool} {upper lower taken : List Bytes}

theorem of_not_isNonzero (short : ∀ element ∈ taken, element.length < 2 ^ 39)
    (free : input.isNonzero = false) : input.Proper answer taken :=
  ⟨short, fun _ nonzero => nomatch free.symm.trans nonzero⟩

theorem dissat (short : ∀ element ∈ taken, element.length < 2 ^ 39) : input.Proper false taken :=
  ⟨short, of_false_eq_true⟩

theorem nil : input.Proper answer [] :=
  ⟨nofun, fun _ _ => nofun⟩

theorem short_append (above : x.Proper first upper) (below : y.Proper second lower) :
    ∀ element ∈ upper ++ lower, element.length < 2 ^ 39 :=
  List.forall_mem_append.mpr ⟨above.short, below.short⟩

theorem short_cons {top : Bytes} (short : top.length < 2 ^ 39) (below : y.Proper second lower) :
    ∀ element ∈ top :: lower, element.length < 2 ^ 39 :=
  List.forall_mem_cons.mpr ⟨short, below.short⟩

theorem sequence (above : x.Proper first upper) (below : y.Proper second lower)
    (allowed : x.Allows upper) (yes : answer = true → first = true ∧ second = true) :
    (x.sequence y).Proper answer (upper ++ lower) where
  short := above.short_append below
  nonempty := by
    intro holds nonzero
    obtain ⟨rfl, rfl⟩ := yes holds
    exact allowed.nonempty_sequence (above.nonempty rfl) (below.nonempty rfl) nonzero

end Input.Proper

namespace Typed

variable {κ : Type} [PublicKey κ] (e : Evaluator)

/-- The search that satisfies a condition. -/
def search (context : Context) (policy : Policy) (material : Material κ) (t : Typed κ Digest) :
    Search κ where
  scheme := context.scheme
  material
  leafHash := t.leafHash context
  rootIsSafe := t.type.malleability.safe
  policy

/-- A witness is what was found for the whole. -/
theorem satisfy_eq_ok {context : Context} {policy : Policy} {material : Material κ}
    {t : Typed κ Digest} {witness : List Bytes} :
    t.satisfy context policy material = .ok witness ↔
      ((t.search context policy material).outcomes t).sat.witness = .stack witness := by
  rw [Typed.satisfy, ← Typed.search]
  cases ((t.search context policy material).outcomes t).sat.witness <;> simp

/-- A proper stack on which a condition gives an answer. -/
def Fits (t : Typed κ Digest) (answer : Bool) (taken : List Bytes) : Prop :=
  t.Answers e false answer taken ∧ t.type.soundness.input.Proper answer taken

/-- A proper stack on which a condition gives an answer, if the answer is yes or a no that matters. -/
def FitsWhere (matters : Prop) (t : Typed κ Digest) : AnswerRel :=
  .Where matters (t.Fits e)

end Typed

/-- No hashlock is opened by the element that stands for a wrong secret. -/
def Condition.AvoidsZeros {κ α : Type} : Condition κ Digest α → Prop :=
  All fun
    | .leaf (.digest d) => d.kind.hash (List.replicate 32 0) ≠ d.bytes
    | _ => True

/-- Wherever an `or_i` can be dissatisfied, the search dissatisfies it through a branch that its type
allows to dissatisfy. Another branch may be cheaper: an `and_v` is also dissatisfied by satisfying its
first child. -/
def Search.DissatisfiesByType {κ : Type} [PublicKey κ] (search : Search κ) : Typed κ Digest → Prop :=
  Condition.All fun
    | .pair .orI (x : Typed κ Digest) (y : Typed κ Digest) =>
      let left := (search.outcomes x).dissat.select .pushOne
      let right := (search.outcomes y).dissat.select .pushZero
      (x.type.soundness.dissatisfiable || y.type.soundness.dissatisfiable) = true →
        x.type.soundness.dissatisfiable = true ∧ (left.cheaper right).witness = left.witness ∨
          y.type.soundness.dissatisfiable = true ∧ (left.cheaper right).witness = right.witness
    | _ => True

/-- Some dissatisfactions matter and others do not: if one matters, or is used in a satisfaction, then so do
those that the search puts it together of. Where that of a hashlock matters, a wrong secret is wrong. -/
def Search.Descends {κ : Type} [PublicKey κ] (search : Search κ) (matters : Typed κ Digest → Prop) :
    Typed κ Digest → Prop
  | .leaf note (.digest d) =>
    matters (.leaf note (.digest d)) → d.kind.hash (List.replicate 32 0) ≠ d.bytes
  | .leaf _ _ => True
  | .wrap note w x => w ≠ .dupIf → w ≠ .nonzero → matters (.wrap note w x) → matters x
  | .pair note .andV x y => matters (.pair note .andV x y) → matters y
  | .pair note .andB x y => matters (.pair note .andB x y) → matters x ∧ matters y
  | .pair _ .orB x y => matters x ∧ matters y
  | .pair _ .orC x _ => matters x
  | .pair note .orD x y => matters x ∧ (matters (.pair note .orD x y) → matters y)
  | .pair note .orI x y =>
    let left := (search.outcomes x).dissat.select .pushOne
    let right := (search.outcomes y).dissat.select .pushZero
    matters (.pair note .orI x y) → matters x ∧ (left.cheaper right).witness = left.witness ∨
      matters y ∧ (left.cheaper right).witness = right.witness
  | .andOr note x y z => matters x ∧ (matters (.andOr note x y z) → matters z)
  | .thresh _ _ items => ∀ x ∈ items, matters x

/-- So it is in every part of a condition. -/
def Search.DescendsThrough {κ : Type} [PublicKey κ] (search : Search κ) (matters : Typed κ Digest → Prop)
    (t : Typed κ Digest) : Prop :=
  ∀ x ∈ Traversal.preorder t, search.Descends matters x

theorem Search.DescendsThrough.root {κ : Type} [PublicKey κ] {search : Search κ}
    {matters : Typed κ Digest → Prop} {t : Typed κ Digest} (descends : search.DescendsThrough matters t) :
    search.Descends matters t :=
  descends t (Traversal.mem_preorder_self t)

theorem Search.DescendsThrough.child {κ : Type} [PublicKey κ] {search : Search κ}
    {matters : Typed κ Digest → Prop} {t x : Typed κ Digest} (descends : search.DescendsThrough matters t)
    (member : x ∈ t.children) : search.DescendsThrough matters x :=
  fun y below => descends y ((Condition.mem_preorder_iff t y).mpr (.inr ⟨x, member, below⟩))

namespace Search

variable {κ : Type} [PublicKey κ] {search : Search κ} {e : Evaluator} {context : Context}
  {note : Attributes}

private theorem pushed_short (scheme : SignatureScheme) (key : κ) :
    (PublicKey.pushed scheme key).length < 2 ^ 39 :=
  Nat.lt_of_le_of_lt (PublicKey.length_pushed_le scheme key) (by decide)

theorem gives_signature (genuine : search.material.Genuine e search.leafHash)
    (same : search.scheme = e.scheme) (key : κ) :
    (search.signature key).Gives fun taken => ∃ signature, taken = [signature] ∧
      e.checkSig (PublicKey.pushed e.scheme key) signature = true ∧ signature.length < 2 ^ 39 := by
  rw [signature, same]
  cases found : search.material.signature? e.scheme search.leafHash key with
  | none => exact Witness.gives_impossible
  | some signature =>
    exact Witness.gives_stack.mpr ⟨signature, rfl, genuine.verifies key signature found,
      Nat.lt_of_le_of_lt (genuine.length_le key signature found) (by decide)⟩

private theorem forall₂_filterMap_signature {signature? : κ → Option Bytes}
    (verifies : ∀ key signature, signature? key = some signature →
      e.checkSig (PublicKey.pushed e.scheme key) signature = true) (keys : List κ) :
    List.Forall₂ (fun signature key => e.checkSig key signature = true) (keys.filterMap signature?)
      ((keys.filter fun key => (signature? key).isSome).map (PublicKey.pushed e.scheme)) := by
  induction keys with
  | nil => exact .nil
  | cons key keys ih =>
    cases found : signature? key with
    | none =>
      rw [List.filterMap_cons_none found, List.filter_cons_of_neg (by simp [found])]
      exact ih
    | some signature =>
      rw [List.filterMap_cons_some found, List.filter_cons_of_pos (by simp [found])]
      exact .cons (verifies key signature found) ih

/-- Genuine signatures, in the order of their keys, are what a `multi` takes. -/
private theorem gives_multi (genuine : search.material.Genuine e search.leafHash)
    (same : search.scheme = e.scheme) (ks : Threshold κ multiCap) :
    (search.ofLeaf (.multi ks : Leaf κ Digest)).Gives fun answer taken =>
      AnswerRel.ofLeaf e false (.multi ks : Leaf κ Digest) answer taken ∧
        (FragmentType.ofLeaf (.multi ks : Leaf κ Digest)).soundness.input.Proper answer taken where
  sat := by
    rw [ofLeaf, multi, same]
    simp only
    split
    next => exact Witness.gives_impossible
    next enough =>
      let signature? := search.material.signature? e.scheme search.leafHash
      obtain ⟨kept, length⟩ := keepShortest_sublist ks.k (ks.items.filterMap signature?)
      have exact := length (Nat.le_of_not_lt enough)
      -- The signatures are kept in key order, so each finds its key.
      have placed : e.checkSigs (keepShortest ks.k (ks.items.filterMap signature?))
          (ks.items.map (PublicKey.pushed e.scheme)) = true := by
        obtain ⟨keys, among, found⟩ := List.sublist_filterMap_iff.mp kept
        rw [found]
        exact Evaluator.checkSigs_iff.mpr ⟨_, (List.filter_sublist.trans among).map _,
          forall₂_filterMap_signature genuine.verifies keys⟩
      have short (element : Bytes) (member : element ∈ keepShortest ks.k (ks.items.filterMap signature?)) :
          element.length < 2 ^ 39 := by
        obtain ⟨key, _, found⟩ := List.mem_filterMap.mp (kept.subset member)
        exact Nat.lt_of_le_of_lt (genuine.length_le key element found) (by decide)
      refine Witness.gives_stack.mpr ⟨⟨_, List.reverse_cons, ?_, ?_⟩, ?_, fun _ _ => ?_⟩
      · rw [List.length_reverse, exact]
      · rw [List.reverse_reverse, placed]
        exact Evaluator.verdict?_eq_some.mpr ⟨rfl, nofun⟩
      · intro element member
        rw [List.mem_reverse, List.mem_cons] at member
        rcases member with rfl | member
        · decide
        · exact short element member
      · have positive := ks.k_pos
        obtain ⟨front, last, shape⟩ := List.eq_nil_or_concat' _ |>.resolve_left
          (List.ne_nil_of_length_pos (exact.symm ▸ positive))
        have nonempty := Evaluator.ne_nil_of_checkSigs placed last (by simp [shape])
        change (([] : Bytes) :: keepShortest ks.k (ks.items.filterMap signature?)).reverse.head? ≠ _
        rw [shape]
        simpa using nonempty
  dissat := by
    refine Witness.gives_stack.mpr ⟨⟨List.replicate ks.k [], ?_, List.length_replicate, ?_⟩,
      .dissat (by simp)⟩
    · rw [List.reverse_replicate, ← List.replicate_succ']
    · rw [List.reverse_replicate]
      exact Evaluator.verdict?_replicate_nil ks.k_pos _

/-- Genuine signatures in the places of their keys are what a `multi_a` takes. -/
private theorem gives_multiA (genuine : search.material.Genuine e search.leafHash)
    (same : search.scheme = e.scheme) (ks : Threshold κ multiACap) :
    (search.ofLeaf (.multiA ks : Leaf κ Digest)).Gives fun answer taken =>
      AnswerRel.ofLeaf e false (.multiA ks : Leaf κ Digest) answer taken ∧
        (FragmentType.ofLeaf (.multiA ks : Leaf κ Digest)).soundness.input.Proper answer taken where
  sat := by
    rw [ofLeaf, multiA, same]
    simp only
    split
    next items filled =>
      obtain ⟨places, fills, exact, rfl⟩ := fillSlots?_eq_some filled
      rw [List.forall₂_map_left_iff] at fills
      have verdicts : List.Forall₂ (fun key place =>
          e.sigVerdict? key place.2 = some place.1 ∧ place.2.length < 2 ^ 39)
          (ks.items.map (PublicKey.pushed e.scheme)) places.reverse := by
        rw [List.forall₂_map_left_iff, ← List.forall₂_reverse_iff, List.reverse_reverse]
        refine fills.imp fun key place fills => ?_
        rcases fills with ⟨holds, found⟩ | rfl
        · rw [holds, Evaluator.sigVerdict?_true]
          exact ⟨genuine.verifies key _ found,
            Nat.lt_of_le_of_lt (genuine.length_le key _ found) (by decide)⟩
        · exact ⟨Evaluator.sigVerdict?_nil _, by decide⟩
      refine Witness.gives_stack.mpr ⟨⟨ks.k, Evaluator.countSigs?_eq_some.mpr ⟨places.reverse,
        verdicts.imp fun _ _ both => both.1, List.map_reverse.symm, ?_⟩, ?_, of_false_eq_true⟩,
        .of_not_isNonzero ?_ rfl⟩
      · rw [List.countP_reverse, exact]
      · rw [beq_self_eq_true]
      · intro element member
        rw [← List.map_reverse] at member
        obtain ⟨place, among, rfl⟩ := List.mem_map.mp member
        obtain ⟨_, _, _, short⟩ := exists_of_mem_forall₂ verdicts among
        exact short
    next => exact Witness.gives_impossible
  dissat := by
    have counted := e.countSigs?_replicate_nil (ks.items.map (PublicKey.pushed e.scheme))
    rw [List.length_map] at counted
    refine Witness.gives_stack.mpr ⟨⟨0, ?_, ?_, of_false_eq_true⟩, .dissat (by simp)⟩
    · rwa [List.reverse_replicate]
    · exact (beq_eq_false_iff_ne.mpr (Nat.ne_of_lt ks.k_pos)).symm

theorem gives_leaf {matters : Prop} (genuine : search.material.Genuine e search.leafHash)
    (same : search.scheme = e.scheme) {l : Leaf κ Digest}
    (wrong : ∀ d, l = .digest d → matters → d.kind.hash (List.replicate 32 0) ≠ d.bytes) :
    (search.ofLeaf l).Gives fun answer taken => (answer = true ∨ matters) →
      AnswerRel.ofLeaf e false l answer taken ∧
        (FragmentType.ofLeaf l).soundness.input.Proper answer taken := by
  have always (gives : (search.ofLeaf l).Gives fun answer taken => AnswerRel.ofLeaf e false l answer taken ∧
        (FragmentType.ofLeaf l).soundness.input.Proper answer taken) :
      (search.ofLeaf l).Gives fun answer taken => (answer = true ∨ matters) →
        AnswerRel.ofLeaf e false l answer taken ∧
          (FragmentType.ofLeaf l).soundness.input.Proper answer taken :=
    ⟨gives.sat.mono fun _ run _ => run, gives.dissat.mono fun _ run _ => run⟩
  have lock {met meets : Bool} (agree : met = meets) : (search.lock met).Gives fun answer taken =>
      (answer = true ∧ taken = [] ∧ meets = true) ∧ Input.zero.Proper answer taken := by
    refine ⟨?_, Witness.gives_impossible⟩
    simp only [Search.lock]
    split
    next met => exact Witness.gives_stack.mpr ⟨⟨trivial, rfl, agree ▸ met⟩, .nil⟩
    next => split <;> nofun
  cases l with
  | one => exact always ⟨Witness.gives_stack.mpr ⟨⟨rfl, rfl⟩, .nil⟩, Witness.gives_impossible⟩
  | zero => exact always ⟨Witness.gives_impossible, Witness.gives_stack.mpr ⟨⟨rfl, rfl⟩, .nil⟩⟩
  | key k =>
    refine always ⟨(gives_signature genuine same k).mono fun taken => ?_, Witness.gives_stack.mpr
      ⟨⟨[], rfl, Evaluator.sigVerdict?_nil _⟩, .dissat (by simp)⟩⟩
    rintro ⟨signature, rfl, checked, short⟩
    refine ⟨⟨signature, rfl, Evaluator.sigVerdict?_true.mpr checked⟩,
      List.forall_mem_singleton.mpr short, fun _ _ empty => ?_⟩
    exact Evaluator.ne_nil_of_checkSig checked (Option.some.inj empty)
  | keyHash k =>
    have revealed : (Witness.stack [PublicKey.pushed search.scheme k]).Gives
        (· = [PublicKey.pushed e.scheme k]) := Witness.gives_stack.mpr (by rw [same]; rfl)
    have long : PublicKey.pushed e.scheme k ≠ [] :=
      List.ne_nil_of_length_pos (PublicKey.length_pushed_pos e.scheme k)
    refine always ⟨?_, ?_⟩
    · refine ((gives_signature genuine same k).below revealed).mono ?_
      rintro _ ⟨_, _, rfl, rfl, signature, rfl, checked, short⟩
      refine ⟨⟨_, signature, rfl, rfl, Evaluator.sigVerdict?_true.mpr checked⟩, ?_, fun _ _ => ?_⟩
      · simpa using ⟨pushed_short e.scheme k, short⟩
      · simpa using long
    · refine ((Witness.gives_stack.mpr rfl : Witness.pushZero.Gives (· = [[]])).below revealed).mono ?_
      rintro _ ⟨_, _, rfl, rfl, rfl⟩
      refine ⟨⟨_, [], rfl, rfl, Evaluator.sigVerdict?_nil _⟩, .dissat ?_⟩
      simpa using pushed_short e.scheme k
  | after l => exact always (lock (genuine.meetsAfter_eq l))
  | older l => exact always (lock (genuine.meetsOlder_eq l))
  | digest d =>
    constructor
    · simp only [ofLeaf, Search.secret]
      cases found : search.material.secret d with
      | none => exact Witness.gives_unavailable
      | some secret =>
        refine Witness.gives_stack.mpr fun _ => ⟨⟨secret.toList, rfl, by simp, ?_⟩, ?_, fun _ _ empty => ?_⟩
        · rw [genuine.opens d secret found, beq_self_eq_true]
        · simp
        · have length := congrArg List.length (Option.some.inj empty)
          simp at length
    · refine Witness.gives_stack.mpr fun may => ⟨⟨_, rfl, List.length_replicate, ?_⟩, .dissat (by simp)⟩
      exact (beq_eq_false_iff_ne.mpr (wrong d rfl (may.resolve_left Bool.false_ne_true))).symm
  | multi ks => exact always (gives_multi genuine same ks)
  | multiA ks => exact always (gives_multiA genuine same ks)

end Search

namespace Typed.Validated

variable {κ : Type} [PublicKey κ] {search : Search κ} {e : Evaluator} {context : Context}
  {note : Attributes} {matters : Typed κ Digest → Prop} {x y z : Typed κ Digest}

private theorem gives_wrap {w : Wrapper} (valid : Validated context (.wrap note w x))
    (descends : search.Descends matters (.wrap note w x))
    (below : (search.outcomes x).Gives (x.FitsWhere e (matters x))) :
    (Outcomes.wrap w (search.outcomes x)).Gives
      (Typed.FitsWhere e (matters (.wrap note w x)) (.wrap note w x)) := by
  have validX := valid.wrap.1
  have fits (answer : Bool) (taken : List Bytes) : Typed.Fits e (.wrap note w x) answer taken ↔
      AnswerRel.wrap false w (x.Answers e false) answer taken ∧
        note.type.soundness.input.Proper answer taken := by
    rw [Typed.Fits, Condition.answers_wrap]
    rfl
  have free {input : Input} (free : input.isNonzero = false) {answer : Bool} {taken : List Bytes}
      (proper : x.type.soundness.input.Proper answer taken) : input.Proper answer taken :=
    .of_not_isNonzero proper.short free
  -- Four wrappers answer as their child does.
  have passing (matter : matters (.wrap note w x) → matters x)
      (step : ∀ {answer : Bool} {taken : List Bytes}, x.Fits e answer taken →
        Typed.Fits e (.wrap note w x) answer taken) :
      (search.outcomes x).Gives
        (Typed.FitsWhere e (matters (.wrap note w x)) (.wrap note w x)) :=
    ⟨below.sat.mono fun _ run may => step (run (may.imp_right matter)),
      below.dissat.mono fun _ run may => step (run (may.imp_right matter))⟩
  have zero {P : List Bytes → Prop} (holds : P [[]]) : Witness.pushZero.Gives P :=
    Witness.gives_stack.mpr holds
  cases w with
  | alt =>
    obtain ⟨_, same⟩ := Soundness.alt_eq_ok.mp valid.soundness_wrap
    simp only [← same] at fits
    exact passing (descends (by decide) (by decide)) fun run => (fits _ _).mpr ⟨run.1, free rfl run.2⟩
  | swap =>
    obtain ⟨_, _, same⟩ := Soundness.swap_eq_ok.mp valid.soundness_wrap
    simp only [← same] at fits
    exact passing (descends (by decide) (by decide)) fun run => (fits _ _).mpr ⟨run.1, free rfl run.2⟩
  | check =>
    obtain ⟨_, same⟩ := Soundness.check_eq_ok.mp valid.soundness_wrap
    simp only [← same] at fits
    exact passing (descends (by decide) (by decide)) fun run => (fits _ _).mpr run
  | zeroNotEqual =>
    obtain ⟨_, same⟩ := Soundness.zeroNotEqual_eq_ok.mp valid.soundness_wrap
    simp only [← same] at fits
    exact passing (descends (by decide) (by decide)) fun run => (fits _ _).mpr run
  | dupIf =>
    obtain ⟨_, none, same⟩ := Soundness.dupIf_eq_ok.mp valid.soundness_wrap
    have pushed : Witness.pushOne.Gives (· = [[1]]) := Witness.gives_stack.mpr rfl
    refine ⟨(below.sat.below pushed).mono ?_, zero fun _ =>
      (fits _ _).mpr ⟨.inl ⟨rfl, rfl⟩, .dissat (by simp)⟩⟩
    rintro _ ⟨_, taken, rfl, rfl, runs⟩ _
    obtain ⟨run, _⟩ := runs (.inl rfl)
    have nothing := validX.allows run
    rw [none] at nothing
    obtain rfl := nothing
    exact (fits _ _).mpr ⟨.inr ⟨rfl, rfl, run⟩, by simp, fun _ _ => by simp⟩
  | verify =>
    obtain ⟨_, same⟩ := Soundness.verify_eq_ok.mp valid.soundness_wrap
    simp only [← same] at fits
    refine ⟨below.sat.mono fun taken runs _ => ?_, Witness.gives_impossible⟩
    obtain ⟨run, proper⟩ := runs (.inl rfl)
    exact (fits _ _).mpr ⟨⟨rfl, run⟩, proper⟩
  | nonzero =>
    obtain ⟨_, nonzero, same⟩ := Soundness.nonzero_eq_ok.mp valid.soundness_wrap
    simp only [← same] at fits
    refine ⟨below.sat.mono fun taken runs _ => ?_, zero fun _ =>
      (fits _ _).mpr ⟨.inl ⟨rfl, rfl⟩, .dissat (by simp)⟩⟩
    obtain ⟨run, proper⟩ := runs (.inl rfl)
    obtain ⟨top, rest, rfl⟩ :=
      List.exists_cons_of_ne_nil ((validX.allows run).of_isNonzero nonzero)
    have nonempty := proper.nonempty rfl nonzero
    refine (fits _ _).mpr ⟨.inr ⟨top, rest, rfl, fun empty => nonempty (congrArg some empty),
      proper.short top List.mem_cons_self, run, of_false_eq_true⟩, proper⟩

private theorem gives_pair {op : Connective} (valid : Validated context (.pair note op x y))
    (descends : search.Descends matters (.pair note op x y))
    (first : (search.outcomes x).Gives (x.FitsWhere e (matters x)))
    (second : (search.outcomes y).Gives (y.FitsWhere e (matters y))) :
    (Outcomes.pair search.policy op (search.outcomes x) (search.outcomes y)).Gives
      (Typed.FitsWhere e (matters (.pair note op x y)) (.pair note op x y)) := by
  obtain ⟨validX, validY, _⟩ := valid.pair
  have fits (answer : Bool) (taken : List Bytes) : Typed.Fits e (.pair note op x y) answer taken ↔
      AnswerRel.pair false op (x.Answers e false) (y.Answers e false) answer taken ∧
        note.type.soundness.input.Proper answer taken := by
    rw [Typed.Fits, Condition.answers_pair]
    rfl
  have both := first.both second
  -- Both children run: what they take, and that all of it is short.
  have split {a b : Bool} {taken : List Bytes} (run : AnswerRel.Both (x.Fits e) (y.Fits e) a b taken) :
      AnswerRel.Both (x.Answers e false) (y.Answers e false) a b taken ∧
        (∀ element ∈ taken, element.length < 2 ^ 39) ∧
        (∀ answer, (answer = true → a = true ∧ b = true) →
          (x.type.soundness.input.sequence y.type.soundness.input).Proper answer taken) := by
    obtain ⟨upper, lower, rfl, runX, runY⟩ := run
    exact ⟨⟨upper, lower, rfl, runX.1, runY.1⟩, runX.2.short_append runY.2,
      fun answer yes => runX.2.sequence runY.2 (validX.allows runX.1) yes⟩
  cases op with
  | andV =>
    obtain ⟨_, _, same⟩ := Soundness.andV_eq_ok.mp valid.soundness_pair
    simp only [← same] at fits
    refine ⟨(both true true).mono fun taken runs _ => ?_, (both true false).mono fun taken runs may => ?_⟩
    · obtain ⟨run, _, proper⟩ := split (runs.of_where (.inl rfl) (.inl rfl))
      exact (fits _ _).mpr ⟨⟨run, of_false_eq_true⟩, proper true fun _ => ⟨rfl, rfl⟩⟩
    · obtain ⟨run, _, proper⟩ := split (runs.of_where (.inl rfl) (may.imp_right descends))
      exact (fits _ _).mpr ⟨⟨run, of_false_eq_true⟩, proper false of_false_eq_true⟩
  | andB =>
    obtain ⟨_, _, same⟩ := Soundness.andB_eq_ok.mp valid.soundness_pair
    simp only [← same] at fits
    refine ⟨(both true true).mono fun taken runs _ => ?_, (both false false).mono fun taken runs may => ?_⟩
    · obtain ⟨run, _, proper⟩ := split (runs.of_where (.inl rfl) (.inl rfl))
      exact (fits _ _).mpr ⟨⟨true, true, run, rfl, of_false_eq_true⟩, proper true fun _ => ⟨rfl, rfl⟩⟩
    · obtain ⟨mayX, mayY⟩ := descends (may.resolve_left Bool.false_ne_true)
      obtain ⟨run, _, proper⟩ := split (runs.of_where (.inr mayX) (.inr mayY))
      exact (fits _ _).mpr ⟨⟨false, false, run, rfl, of_false_eq_true⟩, proper false of_false_eq_true⟩
  | orB =>
    obtain ⟨_, _, _, _, same⟩ := Soundness.orB_eq_ok.mp valid.soundness_pair
    simp only [← same] at fits
    have free := Soundness.isNonzero_orBInput x.type.soundness.input y.type.soundness.input
    have whole {a b : Bool} {taken : List Bytes}
        (runs : AnswerRel.Both (x.FitsWhere e (matters x)) (y.FitsWhere e (matters y)) a b taken) :
        Typed.FitsWhere e (matters (.pair note .orB x y)) (.pair note .orB x y) (a || b) taken := by
      intro _
      obtain ⟨run, short, _⟩ := split (runs.of_where (.inr descends.1) (.inr descends.2))
      exact (fits _ _).mpr ⟨⟨a, b, run, rfl, of_false_eq_true⟩, .of_not_isNonzero short free⟩
    exact ⟨Satisfaction.gives_choose search.policy ((both false true).mono fun _ => whole)
      ((both true false).mono fun _ => whole), (both false false).mono fun _ => whole⟩
  | orD =>
    obtain ⟨_, _, _, _, same⟩ := Soundness.orD_eq_ok.mp valid.soundness_pair
    simp only [← same] at fits
    have free := Soundness.isNonzero_orInput x.type.soundness.input y.type.soundness.input
    have right {answer : Bool} {taken : List Bytes}
        (runs : AnswerRel.Both (x.FitsWhere e (matters x)) (y.FitsWhere e (matters y)) false answer taken) :
        Typed.FitsWhere e (matters (.pair note .orD x y)) (.pair note .orD x y) answer taken := by
      intro may
      obtain ⟨run, short, _⟩ :=
        split (runs.of_where (.inr descends.1) (may.imp_right descends.2))
      exact (fits _ _).mpr ⟨.inr run, .of_not_isNonzero short free⟩
    refine ⟨Satisfaction.gives_choose search.policy (first.sat.mono fun taken run _ => ?_)
      ((both false true).mono fun _ => right), (both false false).mono fun _ => right⟩
    obtain ⟨run, proper⟩ := run (.inl rfl)
    exact (fits _ _).mpr ⟨.inl ⟨rfl, run⟩, .of_not_isNonzero proper.short free⟩
  | orC =>
    obtain ⟨_, _, _, _, same⟩ := Soundness.orC_eq_ok.mp valid.soundness_pair
    simp only [← same] at fits
    have free := Soundness.isNonzero_orInput x.type.soundness.input y.type.soundness.input
    refine ⟨Satisfaction.gives_choose search.policy (first.sat.mono fun taken run _ => ?_)
      ((both false true).mono fun taken runs _ => ?_), Witness.gives_impossible⟩
    · obtain ⟨run, proper⟩ := run (.inl rfl)
      exact (fits _ _).mpr ⟨.inl ⟨rfl, run⟩, .of_not_isNonzero proper.short free⟩
    · obtain ⟨run, short, _⟩ := split (runs.of_where (.inr descends) (.inl rfl))
      exact (fits _ _).mpr ⟨.inr run, .of_not_isNonzero short free⟩
  | orI =>
    obtain ⟨_, _, same⟩ := Soundness.orI_eq_ok.mp valid.soundness_pair
    simp only [← same] at fits
    have free := Soundness.isNonzero_orIInput x.type.soundness.input y.type.soundness.input
    have one : Witness.pushOne.Gives (· = [[1]]) := Witness.gives_stack.mpr rfl
    have zero : Witness.pushZero.Gives (· = [[]]) := Witness.gives_stack.mpr rfl
    have left (answer : Bool) (mayX : answer = true ∨ matters x) :
        (((search.outcomes x).pick answer).select .pushOne).witness.Gives
          (Typed.Fits e (.pair note .orI x y) answer) := by
      refine ((first.pick answer).below one).mono ?_
      rintro _ ⟨_, taken, rfl, rfl, run⟩
      obtain ⟨run, proper⟩ := run mayX
      exact (fits _ _).mpr ⟨⟨taken, .inl ⟨rfl, run⟩⟩,
        .of_not_isNonzero (proper.short_cons (by decide)) free⟩
    have right (answer : Bool) (mayY : answer = true ∨ matters y) :
        (((search.outcomes y).pick answer).select .pushZero).witness.Gives
          (Typed.Fits e (.pair note .orI x y) answer) := by
      refine ((second.pick answer).below zero).mono ?_
      rintro _ ⟨_, taken, rfl, rfl, run⟩
      obtain ⟨run, proper⟩ := run mayY
      exact (fits _ _).mpr ⟨⟨taken, .inr ⟨rfl, run⟩⟩,
        .of_not_isNonzero (proper.short_cons (by decide)) free⟩
    constructor
    · exact (Satisfaction.gives_choose search.policy (left true (.inl rfl)) (right true (.inl rfl))).mono
        fun _ run _ => run
    · intro stack found may
      obtain ⟨mayX, taken⟩ | ⟨mayY, taken⟩ := descends (may.resolve_left Bool.false_ne_true)
      · exact left false (.inr mayX) stack (taken.symm.trans found)
      · exact right false (.inr mayY) stack (taken.symm.trans found)

private theorem gives_andOr (valid : Validated context (.andOr note x y z))
    (descends : search.Descends matters (.andOr note x y z))
    (first : (search.outcomes x).Gives (x.FitsWhere e (matters x)))
    (second : (search.outcomes y).Gives (y.FitsWhere e (matters y)))
    (third : (search.outcomes z).Gives (z.FitsWhere e (matters z))) :
    (Outcomes.andOr search.policy (search.outcomes x) (search.outcomes y) (search.outcomes z)).Gives
      (Typed.FitsWhere e (matters (.andOr note x y z)) (.andOr note x y z)) := by
  obtain ⟨_, _, _, _, _, same⟩ := Soundness.andOr_eq_ok.mp valid.soundness_andOr
  have free := Soundness.isNonzero_andOrInput x.type.soundness.input y.type.soundness.input
    z.type.soundness.input
  have fits {answer : Bool} {taken : List Bytes}
      (run : AnswerRel.andOr false (x.Answers e false) (y.Answers e false) (z.Answers e false) answer
        taken) (short : ∀ element ∈ taken, element.length < 2 ^ 39) :
      Typed.Fits e (.andOr note x y z) answer taken := by
    rw [Typed.Fits, Condition.answers_andOr]
    refine ⟨run, ?_⟩
    change note.type.soundness.input.Proper answer taken
    rw [← same]
    exact .of_not_isNonzero short free
  have no {answer : Bool} {taken : List Bytes}
      (runs : AnswerRel.Both (x.FitsWhere e (matters x)) (z.FitsWhere e (matters z)) false answer taken) :
      Typed.FitsWhere e (matters (.andOr note x y z)) (.andOr note x y z) answer taken := by
    intro may
    obtain ⟨upper, lower, rfl, runX, runZ⟩ :=
      runs.of_where (.inr descends.1) (may.imp_right descends.2)
    exact fits (.inr ⟨upper, lower, rfl, runX.1, runZ.1⟩) (runX.2.short_append runZ.2)
  refine ⟨Satisfaction.gives_choose search.policy ((first.both second true true).mono fun taken runs _ => ?_)
    ((first.both third false true).mono fun _ => no), (first.both third false false).mono fun _ => no⟩
  obtain ⟨upper, lower, rfl, runX, runY⟩ := runs.of_where (.inl rfl) (.inl rfl)
  exact fits (.inl ⟨⟨upper, lower, rfl, runX.1, runY.1⟩, of_false_eq_true⟩) (runX.2.short_append runY.2)

private theorem gives_thresh {policy : Policy} {k : Nat} {items : List (Typed κ Digest)}
    {os : List Outcomes} (valid : Validated context (.thresh note k items)) (few : k < 2 ^ 39)
    (below : List.Forall₂ Outcomes.Gives os (items.map (Typed.Fits e))) :
    (Outcomes.thresh policy k os).Gives (Typed.Fits e (.thresh note k items)) := by
  have fits {marks : List Bool} (exact : marks.length = os.length) (low : marks.countP id ≤ k) :
      (Outcomes.gather marks os).Gives
        (Typed.Fits e (.thresh note k items) (marks.countP id == k)) := by
    refine (Outcomes.gives_gather below exact).mono ?_
    rintro _ ⟨parts, runs, rfl, rfl⟩
    rw [List.countP_map, Function.id_comp] at low ⊢
    rw [List.forall₂_map_left_iff] at runs
    refine ⟨?_, ?_⟩
    · rw [Condition.answers_thresh]
      refine ⟨parts, ?_, rfl, ?_, rfl, of_false_eq_true⟩
      · rw [List.forall₂_map_left_iff]
        exact runs.imp fun _ _ run => run.1
      · exact Nat.lt_of_le_of_lt (Nat.le_trans ((List.dropLast_sublist parts).countP_le) low) few
    · change note.type.soundness.input.Proper _ _
      rw [valid.input_thresh]
      refine .of_not_isNonzero (fun element member => ?_) (Soundness.isNonzero_thresholdInput _)
      obtain ⟨part, among, within⟩ := List.mem_flatMap.mp member
      obtain ⟨x, _, run⟩ := exists_of_mem_forall₂ runs among
      exact run.2.short element within
  constructor
  · intro stack found
    obtain ⟨marks, exact, count, gathered⟩ := Outcomes.threshold_eq_stack found
    have run := fits exact (Nat.le_of_eq count) stack gathered
    rwa [count, beq_self_eq_true] at run
  · rw [Outcomes.thresh_dissat_witness]
    have none : (List.replicate os.length false).countP id = 0 := by simp [List.countP_replicate]
    have run := fits (List.length_replicate (n := os.length) (a := false)) (none.symm ▸ Nat.zero_le k)
    rwa [none, beq_eq_false_iff_ne.mpr (Nat.ne_of_lt valid.thresh.2.1)] at run

/-- What a search finds in genuine material for a validated condition, where it matters. -/
theorem gives_where (genuine : search.material.Genuine e search.leafHash) (same : search.scheme = e.scheme)
    {t : Typed κ Digest} (valid : Validated context t) (counts : t.CountsBelow (2 ^ 39))
    (descends : search.DescendsThrough matters t) :
    (search.outcomes t).Gives (t.FitsWhere e (matters t)) := by
  have root := descends.root
  induction t using Typed.induct with
  | leaf note l =>
    have typed := valid.leaf.2
    have wrong (d : Digest) (isDigest : l = .digest d) (matter : matters (.leaf note l)) :
        d.kind.hash (List.replicate 32 0) ≠ d.bytes := by
      subst isDigest
      exact root matter
    have found := Search.gives_leaf genuine same wrong
    rw [Search.outcomes_leaf]
    refine ⟨found.sat.mono fun taken runs may => ?_, found.dissat.mono fun taken runs may => ?_⟩ <;>
    · have run := runs may
      rw [Typed.Fits, Condition.answers_leaf]
      exact ⟨run.1, (congrArg (fun type => type.soundness.input) typed) ▸ run.2⟩
  | wrap note w x ih =>
    have below := descends.child (x := x) (by simp)
    rw [Search.outcomes_wrap]
    exact valid.gives_wrap root
      (ih valid.wrap.1 ((Condition.countsBelow_wrap ..).mp counts) below below.root)
  | pair note op x y ihX ihY =>
    obtain ⟨countsX, countsY⟩ := (Condition.countsBelow_pair ..).mp counts
    have descendsX := descends.child (x := x) (by simp)
    have descendsY := descends.child (x := y) (by simp)
    rw [Search.outcomes_pair]
    exact valid.gives_pair root (ihX valid.pair.1 countsX descendsX descendsX.root)
      (ihY valid.pair.2.1 countsY descendsY descendsY.root)
  | andOr note x y z ihX ihY ihZ =>
    obtain ⟨validX, validY, validZ, _⟩ := valid.andOr
    obtain ⟨countsX, countsY, countsZ⟩ := (Condition.countsBelow_andOr ..).mp counts
    have descendsX := descends.child (x := x) (by simp)
    have descendsY := descends.child (x := y) (by simp)
    have descendsZ := descends.child (x := z) (by simp)
    rw [Search.outcomes_andOr]
    exact valid.gives_andOr root (ihX validX countsX descendsX descendsX.root)
      (ihY validY countsY descendsY descendsY.root) (ihZ validZ countsZ descendsZ descendsZ.root)
  | thresh note k items ih =>
    obtain ⟨few, countsBelow⟩ := (Condition.countsBelow_thresh ..).mp counts
    have below : List.Forall₂ Outcomes.Gives (items.map search.outcomes) (items.map (Typed.Fits e)) := by
      rw [List.forall₂_map_left_iff, List.forall₂_map_right_iff, List.forall₂_same]
      intro x member
      have descendsX := descends.child (x := x) (by simpa using member)
      have gives := ih x member (valid.thresh.1 x member) (countsBelow x member) descendsX descendsX.root
      exact ⟨gives.sat.mono fun _ run => run (.inl rfl),
        gives.dissat.mono fun _ run => run (.inr (root x member))⟩
    rw [Search.outcomes_thresh]
    have gives : (Outcomes.thresh search.policy k (items.map search.outcomes)).Gives _ :=
      valid.gives_thresh few below
    exact ⟨gives.sat.mono fun _ run _ => run, gives.dissat.mono fun _ run _ => run⟩

/-- Any dissatisfaction may matter if no hashlock is opened by a wrong secret. -/
theorem descendsThrough_of_avoidsZeros {t : Typed κ Digest} (avoids : t.AvoidsZeros) :
    search.DescendsThrough (fun _ => True) t := by
  intro x below
  have avoids := avoids x below
  cases x with
  | leaf note l =>
    cases l with
    | digest d => exact fun _ => avoids
    | one | zero | key | keyHash | after | older | multi | multiA => trivial
  | wrap note w x => exact fun _ _ _ => trivial
  | pair note op x y =>
    cases op with
    | andV => exact fun _ => trivial
    | andB => exact fun _ => ⟨trivial, trivial⟩
    | orB => exact ⟨trivial, trivial⟩
    | orC => exact trivial
    | orD => exact ⟨trivial, fun _ => trivial⟩
    | orI => exact fun _ => (Satisfaction.cheaper_witness_eq _ _).imp (⟨trivial, ·⟩) (⟨trivial, ·⟩)
  | andOr note x y z => exact ⟨trivial, fun _ => trivial⟩
  | thresh note k items => exact fun _ _ => trivial

/-- What a search finds in genuine material for a validated condition. -/
theorem gives (genuine : search.material.Genuine e search.leafHash) (same : search.scheme = e.scheme)
    {t : Typed κ Digest} (valid : Validated context t) (counts : t.CountsBelow (2 ^ 39))
    (avoids : t.AvoidsZeros) : (search.outcomes t).Gives (t.Fits e) := by
  have gives := gives_where genuine same valid counts (descendsThrough_of_avoidsZeros avoids)
  exact ⟨gives.sat.mono fun _ run => run (.inl rfl), gives.dissat.mono fun _ run => run (.inr trivial)⟩

/-- Every witness found in genuine material, whichever policy is followed, is accepted by the encoded
script of its condition. Below `2 ^ 39` the count of a threshold is a script number that the script can
read back. -/
theorem satisfy_accepted (same : e.scheme = context.scheme) {t : Typed κ Digest}
    (valid : Validated context t) (top : t.type.isTopLevel = true)
    (counts : t.CountsBelow (2 ^ 39)) (avoids : t.AvoidsZeros) {material : Material κ}
    (genuine : material.Genuine e (t.leafHash context)) {witness : List Bytes}
    (found : t.satisfy context policy material = .ok witness) :
    e.accepts (t.script context).bytes witness = true := by
  rw [valid.accepts_iff same top (counts.mono (by decide))]
  have gives : ((t.search context policy material).outcomes t).Gives (t.Fits e) :=
    gives genuine same.symm valid counts avoids
  exact (gives.sat _ (satisfy_eq_ok.mp found)).1

end Typed.Validated

namespace Typed

theorem avoidsZeros_twoOfThree : twoOfThree.AvoidsZeros := by
  have wrong : digestOfOnes.kind.hash (List.replicate 32 0) ≠ digestOfOnes.bytes := by decide +kernel
  simpa [twoOfThree, keyWithSecret, pk, Condition.AvoidsZeros, Fragment.children] using wrong

/-- The `0` is the cheaper branch to dissatisfy, whatever is known. -/
theorem dissatisfiesByType_twoOfThree (search : Search PointKey) : search.DissatisfiesByType twoOfThree := by
  have zero : search.outcomes (ofFragment .segwit (.leaf .zero)) = search.ofLeaf .zero := by
    rw [ofFragment, Condition.node, Search.outcomes_leaf]
  have choice : search.DissatisfiesByType keyWithSecret := by
    refine (all_ofFragment _).mpr ⟨fun _ => .inr ⟨rfl, ?_⟩, ?_⟩
    · rw [zero]
      exact Satisfaction.cheaper_zero _
    · simp [pk, Fragment.children]
  simpa [twoOfThree, pk, Search.DissatisfiesByType, Fragment.children] using choice

open Material (secondAndFourthWithSecret)

theorem satisfy_twoOfThree :
    twoOfThree.satisfy .segwit .nonMalleable secondAndFourthWithSecret = .ok twoOfThreeWitness := by
  rw [satisfy_eq_ok, twoOfThree, ofFragment, Condition.node, Search.outcomes_thresh]
  simp only [Outcomes.thresh, Outcomes.threshold, search, Outcomes.thresholdNonMalleable,
    Outcomes.bySignature_eq]
  decide +kernel

/-- Two of three are satisfied with two signatures and a secret. -/
theorem Validated.satisfy_accepted_twoOfThree : Validated .segwit twoOfThree ∧
    twoOfThree.type.isTopLevel = true ∧ twoOfThree.CountsBelow (2 ^ 39) ∧ twoOfThree.AvoidsZeros ∧
      secondAndFourthWithSecret.Genuine .verifiesSecondAndFourth (twoOfThree.leafHash .segwit) ∧
      twoOfThree.satisfy .segwit .nonMalleable secondAndFourthWithSecret = .ok twoOfThreeWitness ∧
      Evaluator.verifiesSecondAndFourth.accepts (twoOfThree.script .segwit).bytes twoOfThreeWitness = true := by
  have genuine := Material.genuine_secondAndFourthWithSecret (twoOfThree.leafHash .segwit)
  exact ⟨validated_twoOfThree, rfl, countsBelow_twoOfThree, avoidsZeros_twoOfThree, genuine,
    satisfy_twoOfThree, satisfy_accepted rfl validated_twoOfThree rfl countsBelow_twoOfThree
      avoidsZeros_twoOfThree genuine satisfy_twoOfThree⟩

end Typed

end LockScript
