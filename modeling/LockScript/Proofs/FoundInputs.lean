import LockScript.Proofs.Candidates

/-! # Inputs of the stacks that are found

The input in the type of a fragment is inferred from small tables that know nothing of a search. Still it
describes what the search finds, in each branch and for each answer: how many elements a stack has, and
that the top one is not empty if it satisfies. So `s:` swaps the one element there is, and no witness for
the child of a `j:` is taken for the empty element that skips it.
-/

namespace LockScript

/-- Material in which no signature is empty. -/
structure Material.Filled {κ : Type} (material : Material κ) : Prop where
  ecdsa : ∀ key signature, material.ecdsa key = some signature → signature ≠ []
  schnorr : ∀ key leaf signature, material.schnorr key leaf = some signature → signature ≠ []

theorem Material.Filled.signature {κ : Type} {material : Material κ} (filled : material.Filled)
    {scheme : SignatureScheme} {leaf : LeafHash} {key : κ} {signature : Bytes}
    (found : material.signature? scheme leaf key = some signature) : signature ≠ [] := by
  cases scheme with
  | ecdsa => exact filled.ecdsa key signature found
  | schnorr => exact filled.schnorr key leaf signature found

/-- What an input says of the elements taken for an answer, the top one first. -/
structure Input.Describes (input : Input) (answer : Bool) (taken : List Bytes) : Prop where
  allows : input.Allows taken
  nonempty : answer = true → input.isNonzero = true → taken.head? ≠ some []

namespace Input.Describes

variable {x y input : Input} {answer first second : Bool} {upper lower taken : List Bytes}

theorem of_not_isNonzero (allows : input.Allows taken) (free : input.isNonzero = false) :
    input.Describes answer taken :=
  ⟨allows, fun _ nonzero => nomatch free.symm.trans nonzero⟩

theorem dissat (allows : input.Allows taken) : input.Describes false taken :=
  ⟨allows, of_false_eq_true⟩

theorem sequence (above : x.Describes first upper) (below : y.Describes second lower)
    (yes : answer = true → first = true ∧ second = true) :
    (x.sequence y).Describes answer (upper ++ lower) := by
  refine ⟨above.allows.append below.allows, fun holds nonzero => ?_⟩
  obtain ⟨rfl, rfl⟩ := yes holds
  exact above.allows.nonempty_sequence (above.nonempty rfl) (below.nonempty rfl) nonzero

/-- A stack has its top element at the end. -/
theorem stack {items : List Bytes} (describes : input.Describes answer items.reverse) :
    (input = .zero → items.length = 0) ∧ (input.isOne = true → items.length = 1) ∧
      (answer = true → input.isNonzero = true → ∃ rest top, items = rest ++ [top] ∧ top ≠ []) := by
  obtain ⟨allows, nonempty⟩ := describes
  refine ⟨?_, fun one => ?_, fun holds nonzero => ?_⟩
  · rintro rfl
    exact List.length_reverse.symm.trans (congrArg List.length allows)
  · exact List.length_reverse.symm.trans (allows.of_isOne one)
  · obtain ⟨top, rest, shape⟩ := List.exists_cons_of_ne_nil (allows.of_isNonzero nonzero)
    refine ⟨rest.reverse, top, ?_, ?_⟩
    · rw [← List.reverse_cons, ← shape, List.reverse_reverse]
    · rintro rfl
      exact nonempty holds nonzero (by rw [shape, List.head?_cons])

end Input.Describes

namespace Search

variable {κ : Type} [PublicKey κ] {search : Search κ} {context : Context}

omit [PublicKey κ] in
theorem gives_own_signature (filled : search.material.Filled) (key : κ) :
    (search.signature key).Gives fun taken => ∃ signature, taken = [signature] ∧ signature ≠ [] := by
  rw [signature]
  cases found : search.material.signature? search.scheme search.leafHash key with
  | none => exact Witness.gives_impossible
  | some signature => exact Witness.gives_stack.mpr ⟨signature, rfl, filled.signature found⟩

/-- Of the signatures for a `multi` at least one is taken, and the last one is on top. -/
private theorem gives_filled_multi (filled : search.material.Filled) (ks : Threshold κ multiCap) :
    (search.ofLeaf (.multi ks : Leaf κ Digest)).Gives Input.anyNonzero.Describes where
  sat := by
    rw [ofLeaf, multi]
    simp only
    split
    next => exact Witness.gives_impossible
    next enough =>
      let signatures := ks.items.filterMap (search.material.signature? search.scheme search.leafHash)
      obtain ⟨kept, length⟩ := keepShortest_sublist ks.k signatures
      have some := length (Nat.le_of_not_lt enough) ▸ ks.k_pos
      obtain ⟨front, last, shape⟩ := (keepShortest ks.k signatures).eq_nil_or_concat'.resolve_left
        (List.ne_nil_of_length_pos some)
      have member : last ∈ signatures := kept.subset (by simp [shape])
      obtain ⟨key, _, found⟩ := List.mem_filterMap.mp member
      refine Witness.gives_stack.mpr ⟨by simp [Input.Allows], fun _ _ => ?_⟩
      change (([] : Bytes) :: keepShortest ks.k signatures).reverse.head? ≠ _
      simpa [shape] using filled.signature found
  dissat := Witness.gives_stack.mpr (.dissat (by simp [Input.Allows]))

theorem gives_leaf_input (filled : search.material.Filled) (l : Leaf κ Digest) :
    (search.ofLeaf l).Gives (FragmentType.ofLeaf l).soundness.input.Describes := by
  have lock (met : Bool) : (search.lock met).Gives Input.zero.Describes := by
    refine ⟨?_, Witness.gives_impossible⟩
    cases met with
    | true => exact Witness.gives_stack.mpr (.of_not_isNonzero rfl rfl)
    | false =>
      rw [Search.lock]
      cases search.rootIsSafe
      · exact Witness.gives_unavailable
      · exact Witness.gives_impossible
  cases l with
  | one => exact ⟨Witness.gives_stack.mpr (.of_not_isNonzero rfl rfl), Witness.gives_impossible⟩
  | zero => exact ⟨Witness.gives_impossible, Witness.gives_stack.mpr (.of_not_isNonzero rfl rfl)⟩
  | after l => exact lock _
  | older l => exact lock _
  | key k =>
    refine ⟨(gives_own_signature filled k).mono ?_, Witness.gives_stack.mpr (.dissat rfl)⟩
    rintro _ ⟨signature, rfl, nonempty⟩
    exact ⟨rfl, fun _ _ => by simpa using nonempty⟩
  | keyHash k =>
    have shown : (Witness.stack [PublicKey.pushed search.scheme k]).Gives
        (· = [PublicKey.pushed search.scheme k]) := Witness.gives_stack.mpr rfl
    have revealed : PublicKey.pushed search.scheme k ≠ [] :=
      List.ne_nil_of_length_pos (PublicKey.length_pushed_pos search.scheme k)
    constructor
    · refine ((gives_own_signature filled k).below shown).mono ?_
      rintro _ ⟨_, _, rfl, rfl, signature, rfl, _⟩
      exact ⟨List.cons_ne_nil _ _, fun _ _ => by simpa using revealed⟩
    · exact Witness.gives_stack.mpr (.dissat (List.cons_ne_nil _ _))
  | digest d =>
    refine ⟨?_, Witness.gives_stack.mpr (.dissat rfl)⟩
    change (search.secret d).Gives _
    rw [secret]
    cases search.material.secret d with
    | none => exact Witness.gives_unavailable
    | some s =>
      exact Witness.gives_stack.mpr ⟨rfl, fun _ _ => by simp⟩
  | multi ks => exact gives_filled_multi filled ks
  | multiA ks =>
    constructor <;> exact fun _ _ => .of_not_isNonzero trivial rfl

end Search

namespace Typed.Validated

variable {κ : Type} [PublicKey κ] {context : Context} {search : Search κ} {t : Typed κ Digest}

/-- The input of a condition describes every candidate for it. -/
theorem describes_candidate (valid : Validated context t) (filled : search.material.Filled) {answer : Bool}
    {taken : List Bytes} (candidate : t.Candidates search.ofLeaf answer taken) :
    t.type.soundness.input.Describes answer taken := by
  induction t using Typed.induct generalizing answer taken with
  | leaf note l =>
    rw [Condition.candidates_leaf] at candidate
    change note.type.soundness.input.Describes answer taken
    rw [← valid.leaf.2]
    simpa using (Search.gives_leaf_input filled l).pick answer _ candidate
  | wrap note w x ih =>
    have validX := valid.wrap.1
    rw [Condition.candidates_wrap] at candidate
    change note.type.soundness.input.Describes answer taken
    rw [valid.input_wrap]
    cases w with
    | alt | swap => exact .of_not_isNonzero trivial rfl
    | check | zeroNotEqual => exact ih validX candidate
    | verify =>
      obtain ⟨rfl, candidate⟩ := candidate
      exact ih validX candidate
    | dupIf =>
      cases answer with
      | true =>
        obtain ⟨rest, rfl, below⟩ := candidate
        have none := (ih validX below).allows
        rw [valid.input_of_wrap.1 rfl] at none
        obtain rfl : rest = [] := none
        exact ⟨rfl, fun _ _ => by simp⟩
      | false =>
        obtain rfl : taken = [[]] := candidate
        exact .dissat rfl
    | nonzero =>
      cases answer with
      | true => exact ih validX candidate
      | false =>
        obtain rfl : taken = [[]] := candidate
        exact .dissat (Input.allows_singleton (valid.input_of_wrap.2 rfl) [])
  | pair note op x y ihX ihY =>
    obtain ⟨validX, validY, _⟩ := valid.pair
    rw [Condition.candidates_pair] at candidate
    change note.type.soundness.input.Describes answer taken
    rw [valid.input_pair]
    have both {first second : Bool} {taken : List Bytes} (run : AnswerRel.Both (x.Candidates search.ofLeaf)
        (y.Candidates search.ofLeaf) first second taken) (yes : answer = true → first = true ∧ second = true) :
        (x.type.soundness.input.sequence y.type.soundness.input).Describes answer taken := by
      obtain ⟨upper, lower, rfl, left, right⟩ := run
      exact (ihX validX left).sequence (ihY validY right) yes
    cases op with
    | andV => exact both candidate fun yes => ⟨rfl, yes⟩
    | andB => exact both candidate fun yes => ⟨yes, yes⟩
    | orB =>
      refine .of_not_isNonzero ?_ (Soundness.isNonzero_orBInput _ _)
      have whole {first second : Bool} (run : AnswerRel.Both (x.Candidates search.ofLeaf)
          (y.Candidates search.ofLeaf) first second taken) :
          (Soundness.orBInput x.type.soundness.input y.type.soundness.input).Allows taken := by
        obtain ⟨upper, lower, rfl, left, right⟩ := run
        exact (ihX validX left).allows.orB (ihY validY right).allows
      cases answer with
      | true => exact candidate.elim whole whole
      | false => exact whole candidate
    | orD =>
      refine .of_not_isNonzero ?_ (Soundness.isNonzero_orInput _ _)
      obtain ⟨_, left⟩ | ⟨upper, lower, rfl, left, right⟩ := candidate
      · exact (ihX validX left).allows.orInput_left
      · exact (ihX validX left).allows.orInput_append (ihY validY right).allows
    | orC =>
      refine .of_not_isNonzero ?_ (Soundness.isNonzero_orInput _ _)
      obtain ⟨_, left | ⟨upper, lower, rfl, left, right⟩⟩ := candidate
      · exact (ihX validX left).allows.orInput_left
      · exact (ihX validX left).allows.orInput_append (ihY validY right).allows
    | orI =>
      refine .of_not_isNonzero ?_ (Soundness.isNonzero_orIInput _ _)
      obtain ⟨rest, ⟨rfl, left⟩ | ⟨rfl, right⟩⟩ := candidate
      · exact (ihX validX left).allows.orI_left
      · exact (ihY validY right).allows.orI_right
  | andOr note x y z ihX ihY ihZ =>
    obtain ⟨validX, validY, validZ, _⟩ := valid.andOr
    rw [Condition.candidates_andOr] at candidate
    change note.type.soundness.input.Describes answer taken
    rw [valid.input_andOr]
    refine .of_not_isNonzero ?_ (Soundness.isNonzero_andOrInput _ _ _)
    obtain ⟨_, upper, lower, rfl, left, right⟩ | ⟨upper, lower, rfl, left, right⟩ := candidate
    · exact (ihX validX left).allows.andOr_second (ihY validY right).allows
    · exact (ihX validX left).allows.andOr_third (ihZ validZ right).allows
  | thresh note k items ih =>
    rw [Condition.candidates_thresh] at candidate
    change note.type.soundness.input.Describes answer taken
    rw [valid.input_thresh]
    refine .of_not_isNonzero ?_ (Soundness.isNonzero_thresholdInput _)
    obtain ⟨parts, runs, rfl, _⟩ := candidate
    rw [List.forall₂_map_left_iff] at runs
    have each : List.Forall₂ Input.Allows (items.map fun x : Typed κ Digest => x.type.soundness.input)
        (parts.map Prod.snd) := by
      rw [List.forall₂_map_left_iff, List.forall₂_map_right_iff]
      exact forall₂_imp_of_mem (fun x member part _ run =>
        (ih x member (valid.thresh.1 x member) run).allows) runs
    exact List.flatMap_def (l := parts) ▸ Input.Allows.threshold each

/-- If no signature is empty, then under either policy the stacks that are found for any node of a
condition are as its input says: no element for an input of none, exactly one for an input of one, and
for a yes the top element is not empty where the input says so. -/
theorem input_describes_outcomes (valid : Validated context t) {material : Material κ}
    (filled : material.Filled) (policy : Policy) {x : Typed κ Digest} (below : x ∈ Traversal.preorder t)
    (answer : Bool) {items : List Bytes}
    (found : (((t.search context policy material).outcomes x).pick answer).witness = .stack items) :
    (x.type.soundness.input = .zero → items.length = 0) ∧
    (x.type.soundness.input = .one ∨ x.type.soundness.input = .oneNonzero → items.length = 1) ∧
    (answer = true → x.type.soundness.input = .oneNonzero ∨ x.type.soundness.input = .anyNonzero →
      ∃ rest top, items = rest ++ [top] ∧ top ≠ []) := by
  have held : (t.search context policy material).material.Filled := filled
  have candidate := ((t.search context policy material).gives_candidates x).pick answer items found
  obtain ⟨none, one, top⟩ :=
    ((valid.of_mem_preorder below).describes_candidate held candidate).stack
  refine ⟨none, fun single => one ?_, fun yes nonzero => top yes ?_⟩
  · rcases single with single | single <;> rw [single] <;> rfl
  · rcases nonzero with nonzero | nonzero <;> rw [nonzero] <;> rfl

open Material (secondAndFourthWithSecret)

/-- The `multi` among two of three takes a signature above the empty element, and the `pk` beside it is
dissatisfied with one element. -/
theorem input_describes_outcomes_twoOfThree : ∃ multi single : Typed PointKey Digest,
    Validated .segwit twoOfThree ∧ secondAndFourthWithSecret.Filled ∧
      multi ∈ Traversal.preorder twoOfThree ∧ single ∈ Traversal.preorder twoOfThree ∧
      multi.type.soundness.input = .anyNonzero ∧ single.type.soundness.input = .oneNonzero ∧
      let search := twoOfThree.search .segwit .nonMalleable secondAndFourthWithSecret
      (∃ items, (search.outcomes multi).sat.witness = .stack items ∧
        ∃ rest top, items = rest ++ [top] ∧ top ≠ []) ∧
      ∃ items, (search.outcomes single).dissat.witness = .stack items ∧ items.length = 1 := by
  let multi : Typed PointKey Digest := ofFragment .segwit (.leaf (.multi firstOrSecond))
  let single : Typed PointKey Digest := pk .segwit (pointOfByte 3)
  let search := twoOfThree.search .segwit .nonMalleable secondAndFourthWithSecret
  have filled : secondAndFourthWithSecret.Filled := by
    refine ⟨fun key signature found => ?_, nofun⟩
    exact Evaluator.ne_nil_of_checkSig
      ((Material.genuine_secondAndFourthWithSecret .zero).verifies key signature found)
  have within {x y t : Typed PointKey Digest} (child : y ∈ t.children) (below : x ∈ Traversal.preorder y) :
      x ∈ Traversal.preorder t :=
    (Condition.mem_preorder_iff t x).mpr (.inr ⟨y, child, below⟩)
  have among : multi ∈ Traversal.preorder twoOfThree :=
    within List.mem_cons_self (Traversal.mem_preorder_self multi)
  have swapped : single ∈ Traversal.preorder (ofFragment .segwit (.wrap .swap single)) :=
    within List.mem_cons_self (Traversal.mem_preorder_self single)
  have among' : single ∈ Traversal.preorder twoOfThree :=
    within (List.mem_cons_of_mem _ List.mem_cons_self) swapped
  have found : (search.outcomes multi).sat.witness = .stack [[], List.replicate 71 0x22] := by
    decide +kernel
  have found' : (search.outcomes single).dissat.witness = .stack [[]] := by decide +kernel
  obtain ⟨_, _, top⟩ := validated_twoOfThree.input_describes_outcomes filled .nonMalleable among true found
  obtain ⟨_, one, _⟩ := validated_twoOfThree.input_describes_outcomes filled .nonMalleable among' false found'
  exact ⟨multi, single, validated_twoOfThree, filled, among, among', rfl, rfl,
    ⟨_, found, top rfl (.inr rfl)⟩, _, found', one (.inr rfl)⟩

end Typed.Validated

end LockScript
