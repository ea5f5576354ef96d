import LockScript.Proofs.Parsing

/-! # What an accepted witness contains

Read as a policy, a condition asks for signatures, secrets and lock times, and combines what it asks
for without regard to stacks. A script only accepts a witness whose elements satisfy its condition
read in this way. The witness can be any one: what is used of it is what the script has looked at.
-/

namespace LockScript

theorem countP_le_of_forall₂ {α β : Type} {R : α → β → Prop} {p : α → Bool} {q : β → Bool}
    {items : List α} {others : List β} (related : List.Forall₂ R items others)
    (imp : ∀ x ∈ items, ∀ y ∈ others, R x y → q y = true → p x = true) :
    others.countP q ≤ items.countP p := by
  induction related with
  | nil => exact Nat.le_refl 0
  | @cons x y items others head _ ih =>
    have below := ih fun x member y among =>
      imp x (List.mem_cons_of_mem _ member) y (List.mem_cons_of_mem _ among)
    have first := imp x List.mem_cons_self y List.mem_cons_self head
    rw [List.countP_cons, List.countP_cons]
    by_cases holds : q y = true
    · simpa [holds, first holds] using below
    · rw [if_neg holds]
      omega

/-- Two properties that hold of more items than there are hold together of one. -/
theorem exists_of_length_lt_countP_add {α : Type} {p q : α → Bool} {items : List α}
    (more : items.length < items.countP p + items.countP q) :
    ∃ x ∈ items, p x = true ∧ q x = true := by
  induction items with
  | nil => exact absurd more (Nat.lt_irrefl 0)
  | cons x rest ih =>
    by_cases both : p x = true ∧ q x = true
    · exact ⟨x, List.mem_cons_self, both⟩
    · have fewer : rest.length < rest.countP p + rest.countP q := by
        rw [List.length_cons, List.countP_cons, List.countP_cons] at more
        split_ifs at more with first second
        · exact absurd ⟨first, second⟩ both
        all_goals omega
      obtain ⟨y, member, holds⟩ := ih fewer
      exact ⟨y, List.mem_cons_of_mem x member, holds⟩

variable {κ α : Type} [PublicKey κ] (e : Evaluator) (elements : List Bytes)

/-- Whether some element is a signature by a key. -/
def Evaluator.hasSignature (key : κ) : Bool :=
  elements.any (e.checkSig (PublicKey.pushed e.scheme key))

/-- Whether the elements at hand are what a leaf asks for. -/
def Leaf.holds : Leaf κ Digest → Bool
  | .one => true
  | .zero => false
  | .key k | .keyHash k => e.hasSignature elements k
  | .after lock => e.meetsAfter lock.value
  | .older lock => e.meetsOlder lock.value
  | .digest d => elements.any fun secret => secret.length == 32 && d.kind.hash secret == d.bytes
  | .multi ks => ks.k ≤ ks.items.countP (e.hasSignature elements)
  | .multiA ks => ks.k ≤ ks.items.countP (e.hasSignature elements)

/-- Whether the elements at hand are what a fragment asks for, over the same for its children. -/
def Fragment.holds : Fragment κ Digest Bool → Bool
  | .leaf l => l.holds e elements
  | .wrap _ x => x
  | .pair op x y =>
    match op with
    | .andV | .andB => x && y
    | .orB | .orD | .orC | .orI => x || y
  | .andOr x y z => x && y || z
  | .thresh k items => k ≤ items.countP id

namespace Condition

/-- Whether the elements at hand satisfy a condition read as a policy. -/
def holds (t : Condition κ Digest α) : Bool :=
  Traversal.bottomUp (fun x items => Fragment.holds e elements (x.fragment.withChildren items)) t

theorem holds_eq (t : Condition κ Digest α) :
    t.holds e elements = Fragment.holds e elements (t.fragment.map (holds e elements)) :=
  bottomUp_fragment (Fragment.holds e elements) t

@[simp] theorem holds_leaf (note : α) (l : Leaf κ Digest) :
    (leaf note l).holds e elements = l.holds e elements :=
  holds_eq e elements _

@[simp] theorem holds_wrap (note : α) (w : Wrapper) (x : Condition κ Digest α) :
    (wrap note w x).holds e elements = x.holds e elements :=
  holds_eq e elements _

@[simp] theorem holds_pair (note : α) (op : Connective) (x y : Condition κ Digest α) :
    (pair note op x y).holds e elements =
      Fragment.holds (κ := κ) e elements (.pair op (x.holds e elements) (y.holds e elements)) :=
  holds_eq e elements _

@[simp] theorem holds_andOr (note : α) (x y z : Condition κ Digest α) :
    (andOr note x y z).holds e elements =
      (x.holds e elements && y.holds e elements || z.holds e elements) :=
  holds_eq e elements _

@[simp] theorem holds_thresh (note : α) (k : Nat) (items : List (Condition κ Digest α)) :
    (thresh note k items).holds e elements = decide (k ≤ items.countP (holds e elements)) := by
  rw [holds_eq]
  simp [fragment, Fragment.map, Fragment.holds, List.countP_map]

end Condition

variable {e elements}

/-- No element opens the hash of a key but the key itself. -/
def Evaluator.OpensOnly (e : Evaluator) (elements : List Bytes) (keys : List κ) : Prop :=
  ∀ element ∈ elements, ∀ key ∈ keys,
    HashKind.hash .hash160 element = PublicKey.hash e.scheme key →
      element = PublicKey.pushed e.scheme key

theorem Evaluator.hasSignature_of_checkSig {key : κ} {signature : Bytes} (member : signature ∈ elements)
    (checked : e.checkSig (PublicKey.pushed e.scheme key) signature = true) :
    e.hasSignature elements key = true :=
  List.any_eq_true.mpr ⟨signature, member, checked⟩

/-- A leaf that answers yes has taken what it asks for. -/
theorem Leaf.holds_of_yes {regular : Bool} {l : Leaf κ Digest} {taken : List Bytes}
    (run : AnswerRel.ofLeaf e regular l true taken) (among : ∀ element ∈ taken, element ∈ elements)
    (opens : e.OpensOnly elements l.keys) : l.holds e elements = true := by
  cases l with
  | one => rfl
  | zero => cases run.1
  | key k =>
    obtain ⟨signature, rfl, verdict⟩ := run
    exact Evaluator.hasSignature_of_checkSig (among _ List.mem_cons_self)
      (Evaluator.sigVerdict?_true.mp verdict)
  | keyHash k =>
    obtain ⟨key, signature, rfl, opened, verdict⟩ := run
    obtain rfl := opens key (among _ List.mem_cons_self) k List.mem_cons_self opened
    exact Evaluator.hasSignature_of_checkSig (among signature (by simp))
      (Evaluator.sigVerdict?_true.mp verdict)
  | after lock | older lock => exact run.2.2
  | digest d =>
    obtain ⟨secret, rfl, width, same⟩ := run
    refine List.any_eq_true.mpr ⟨secret, among _ List.mem_cons_self, ?_⟩
    rw [width, ← same]
    rfl
  | multi ks =>
    obtain ⟨signatures, rfl, exact, verdict⟩ := run
    obtain ⟨placed, _⟩ := Evaluator.verdict?_eq_some.mp verdict
    obtain ⟨_, chosen, each⟩ := Evaluator.checkSigs_iff.mp placed.symm
    obtain ⟨keys, sublist, rfl⟩ := List.sublist_map_iff.mp chosen
    rw [List.forall₂_map_right_iff] at each
    have signed : keys.countP (e.hasSignature elements) = keys.length := by
      refine List.countP_eq_length.mpr fun key member => ?_
      obtain ⟨signature, within, checked⟩ := exists_of_mem_forall₂ each member
      exact Evaluator.hasSignature_of_checkSig
        (among _ (List.mem_append_left _ (List.mem_reverse.mp within))) checked
    have length : keys.length = ks.k := by
      rw [← each.length_eq, List.length_reverse, exact]
    simpa [Leaf.holds, ← length, ← signed] using sublist.countP_le
  | multiA ks =>
    obtain ⟨count, counted, same, _⟩ := run
    obtain ⟨places, verdicts, rfl, rfl⟩ := Evaluator.countSigs?_eq_some.mp counted
    rw [List.forall₂_map_left_iff] at verdicts
    have signed := countP_le_of_forall₂ (p := e.hasSignature elements) verdicts
      fun key _ place member verdict holds => Evaluator.hasSignature_of_checkSig
        (among _ (List.mem_map_of_mem member))
        (Evaluator.sigVerdict?_true.mp (verdict.trans (congrArg some holds)))
    simpa [Leaf.holds, ← beq_iff_eq.mp same.symm] using signed

/-- A condition that answers yes has taken what it asks for. -/
theorem Condition.holds_of_yes {regular : Bool} {t : Condition κ Digest α} {taken : List Bytes}
    (run : t.Answers e regular true taken) (among : ∀ element ∈ taken, element ∈ elements)
    (opens : e.OpensOnly elements t.keys) : t.holds e elements = true := by
  induction t using Condition.induct generalizing taken with
  | leaf note l =>
    rw [answers_leaf] at run
    rw [holds_leaf]
    exact Leaf.holds_of_yes run among (keys_leaf note l ▸ opens)
  | wrap note w x ih =>
    rw [answers_wrap] at run
    rw [keys_wrap] at opens
    rw [holds_wrap]
    cases w with
    | alt | swap | check | zeroNotEqual => exact ih run among opens
    | dupIf =>
      obtain ⟨no, _⟩ | ⟨_, _, run⟩ := run
      · cases no
      · exact ih run nofun opens
    | verify => exact ih run.2 among opens
    | nonzero =>
      obtain ⟨no, _⟩ | ⟨_, _, _, _, _, run, _⟩ := run
      · cases no
      · exact ih run among opens
  | pair note op x y ihX ihY =>
    rw [answers_pair] at run
    rw [keys_pair] at opens
    rw [holds_pair]
    have opensX : e.OpensOnly elements x.keys := fun element member key within =>
      opens element member key (List.mem_append_left _ within)
    have opensY : e.OpensOnly elements y.keys := fun element member key within =>
      opens element member key (List.mem_append_right _ within)
    have left {upper lower : List Bytes} (run : x.Answers e regular true upper)
        (among : ∀ element ∈ upper ++ lower, element ∈ elements) : x.holds e elements = true :=
      ihX run (fun element member => among element (List.mem_append_left _ member)) opensX
    have right {upper lower : List Bytes} (run : y.Answers e regular true lower)
        (among : ∀ element ∈ upper ++ lower, element ∈ elements) : y.holds e elements = true :=
      ihY run (fun element member => among element (List.mem_append_right _ member)) opensY
    cases op with
    | andV =>
      obtain ⟨⟨upper, lower, rfl, runX, runY⟩, _⟩ := run
      exact Bool.and_eq_true_iff.mpr ⟨left runX among, right runY among⟩
    | andB =>
      obtain ⟨first, second, ⟨upper, lower, rfl, runX, runY⟩, both, _⟩ := run
      obtain ⟨rfl, rfl⟩ := Bool.and_eq_true_iff.mp both.symm
      exact Bool.and_eq_true_iff.mpr ⟨left runX among, right runY among⟩
    | orB =>
      obtain ⟨first, second, ⟨upper, lower, rfl, runX, runY⟩, either, _⟩ := run
      obtain rfl | rfl := Bool.or_eq_true_iff.mp either.symm
      · exact Bool.or_eq_true_iff.mpr (.inl (left runX among))
      · exact Bool.or_eq_true_iff.mpr (.inr (right runY among))
    | orD | orC =>
      obtain ⟨_, run⟩ | ⟨upper, lower, rfl, _, runY⟩ := run
      · exact Bool.or_eq_true_iff.mpr (.inl (ihX run among opensX))
      · exact Bool.or_eq_true_iff.mpr (.inr (right runY among))
    | orI =>
      obtain ⟨rest, ⟨rfl, run⟩ | ⟨rfl, run⟩⟩ := run
      · exact Bool.or_eq_true_iff.mpr
          (.inl (ihX run (fun element member => among element (List.mem_cons_of_mem _ member)) opensX))
      · exact Bool.or_eq_true_iff.mpr
          (.inr (ihY run (fun element member => among element (List.mem_cons_of_mem _ member)) opensY))
  | andOr note x y z ihX ihY ihZ =>
    rw [answers_andOr] at run
    rw [keys_andOr] at opens
    rw [holds_andOr, Bool.or_eq_true_iff, Bool.and_eq_true_iff]
    obtain ⟨⟨upper, lower, rfl, runX, runY⟩, _⟩ | ⟨upper, lower, rfl, _, runZ⟩ := run
    · exact .inl ⟨ihX runX (fun element member => among element (List.mem_append_left _ member))
          fun element member key within => opens element member key (by simp [within]),
        ihY runY (fun element member => among element (List.mem_append_right _ member))
          fun element member key within => opens element member key (by simp [within])⟩
    · exact .inr (ihZ runZ (fun element member => among element (List.mem_append_right _ member))
        fun element member key within => opens element member key (by simp [within]))
  | thresh note k items ih =>
    rw [answers_thresh] at run
    rw [keys_thresh] at opens
    rw [holds_thresh, decide_eq_true_iff]
    obtain ⟨parts, runs, rfl, _, exact, _⟩ := run
    rw [List.forall₂_map_left_iff] at runs
    rw [← beq_iff_eq.mp exact.symm]
    refine countP_le_of_forall₂ runs fun x member part within run yes => ?_
    rw [yes] at run
    exact ih x member run
      (fun element taken => among element (List.mem_flatMap.mpr ⟨part, within, taken⟩))
      fun element taken key own => opens element taken key (List.mem_flatMap.mpr ⟨x, member, own⟩)

theorem Leaf.exists_signature {l : Leaf κ Digest} (safe : (FragmentType.ofLeaf l).malleability.safe = true)
    (holds : l.holds e elements = true) : ∃ key ∈ l.keys, e.hasSignature elements key = true := by
  have counted {cap : Option Nat} {ks : Threshold κ cap}
      (enough : ks.k ≤ ks.items.countP (e.hasSignature elements)) :
      ∃ key ∈ ks.items, e.hasSignature elements key = true :=
    List.countP_pos_iff.mp (Nat.lt_of_lt_of_le ks.k_pos enough)
  cases l with
  | one | after lock | older lock | digest d => cases safe
  | zero => cases holds
  | key k | keyHash k => exact ⟨k, List.mem_cons_self, holds⟩
  | multi ks | multiA ks => exact counted (of_decide_eq_true holds)

namespace Typed.Validated

variable {context : Context} {t : Typed κ Digest}

/-- A safe condition only holds with a signature. -/
theorem exists_signature (valid : Validated context t) (safe : t.type.malleability.safe = true)
    (holds : t.holds e elements = true) : ∃ key ∈ t.keys, e.hasSignature elements key = true := by
  induction t using Typed.induct with
  | leaf note l =>
    have typed := valid.leaf.2
    rw [Condition.holds_leaf] at holds
    rw [Condition.keys_leaf]
    exact Leaf.exists_signature (typed ▸ safe) holds
  | wrap note w x ih =>
    obtain ⟨validX, _⟩ := valid.wrap
    change note.type.malleability.safe = true at safe
    rw [valid.malleability_wrap] at safe
    rw [Condition.holds_wrap] at holds
    rw [Condition.keys_wrap]
    refine ih validX ?_ holds
    cases w <;> exact safe
  | pair note op x y ihX ihY =>
    obtain ⟨validX, validY, _⟩ := valid.pair
    change note.type.malleability.safe = true at safe
    rw [valid.malleability_pair] at safe
    rw [Condition.holds_pair] at holds
    rw [Condition.keys_pair]
    have left (safe : x.type.malleability.safe = true) (holds : x.holds e elements = true) :
        ∃ key ∈ x.keys ++ y.keys, e.hasSignature elements key = true := by
      obtain ⟨key, member, signed⟩ := ihX validX safe holds
      exact ⟨key, List.mem_append_left _ member, signed⟩
    have right (safe : y.type.malleability.safe = true) (holds : y.holds e elements = true) :
        ∃ key ∈ x.keys ++ y.keys, e.hasSignature elements key = true := by
      obtain ⟨key, member, signed⟩ := ihY validY safe holds
      exact ⟨key, List.mem_append_right _ member, signed⟩
    cases op with
    | andV | andB =>
      obtain ⟨holdsX, holdsY⟩ := Bool.and_eq_true_iff.mp holds
      exact (Bool.or_eq_true_iff.mp safe).elim (left · holdsX) (right · holdsY)
    | orB | orD | orC | orI =>
      obtain ⟨safeX, safeY⟩ := Bool.and_eq_true_iff.mp safe
      exact (Bool.or_eq_true_iff.mp holds).elim (left safeX) (right safeY)
  | andOr note x y z ihX ihY ihZ =>
    obtain ⟨validX, validY, validZ, _⟩ := valid.andOr
    change note.type.malleability.safe = true at safe
    rw [valid.malleability_andOr] at safe
    rw [Condition.holds_andOr, Bool.or_eq_true_iff, Bool.and_eq_true_iff] at holds
    rw [Condition.keys_andOr]
    obtain ⟨either, safeZ⟩ := Bool.and_eq_true_iff.mp safe
    have within {keys : List κ} (sub : ∀ key ∈ keys, key ∈ x.keys ++ y.keys ++ z.keys)
        (found : ∃ key ∈ keys, e.hasSignature elements key = true) :
        ∃ key ∈ x.keys ++ y.keys ++ z.keys, e.hasSignature elements key = true := by
      obtain ⟨key, member, signed⟩ := found
      exact ⟨key, sub key member, signed⟩
    obtain ⟨holdsX, holdsY⟩ | holdsZ := holds
    · obtain safeX | safeY := Bool.or_eq_true_iff.mp either
      · exact within (fun key member => by simp [member]) (ihX validX safeX holdsX)
      · exact within (fun key member => by simp [member]) (ihY validY safeY holdsY)
    · exact within (fun key member => by simp [member]) (ihZ validZ safeZ holdsZ)
  | thresh note k items ih =>
    change note.type.malleability.safe = true at safe
    rw [valid.malleability_thresh] at safe
    rw [Condition.holds_thresh, decide_eq_true_iff] at holds
    rw [Condition.keys_thresh]
    -- More children are safe than can be left out, so one of those that hold is safe.
    obtain ⟨bounded, many⟩ := of_decide_eq_true safe
    simp only [List.length_map, List.countP_map] at bounded many
    have more : items.length < items.countP (fun x => x.type.malleability.safe) +
        items.countP (Condition.holds e elements) := by
      simp only [Function.comp_def] at many
      omega
    obtain ⟨x, member, safeX, holdsX⟩ := exists_of_length_lt_countP_add more
    obtain ⟨key, own, signed⟩ := ih x member (valid.thresh.1 x member) safeX holdsX
    exact ⟨key, List.mem_flatMap.mpr ⟨x, member, own⟩, signed⟩

/-- If the encoded script of a condition accepts a witness, then the elements of the witness satisfy
the condition as a policy, and where every path needs a signature there is one by a key of the
condition. -/
theorem holds_of_accepts (same : e.scheme = context.scheme) (valid : Validated context t)
    (top : t.type.isTopLevel = true) (counts : t.CountsBelow (2 ^ 64)) {witness : List Bytes}
    (opens : e.OpensOnly witness t.keys)
    (accepted : e.accepts (t.script context).bytes witness = true) :
    t.holds e witness = true ∧
      (t.requiresSignature = true → ∃ signature ∈ witness, ∃ key ∈ t.keys,
        e.checkSig (PublicKey.pushed context.scheme key) signature = true) := by
  have run := (valid.accepts_iff same top counts witness).mp accepted
  have holds := Condition.holds_of_yes run (fun element member => List.mem_reverse.mp member) opens
  refine ⟨holds, fun safe => ?_⟩
  obtain ⟨key, member, signed⟩ := valid.exists_signature safe holds
  obtain ⟨signature, within, checked⟩ := List.any_eq_true.mp signed
  exact ⟨signature, within, key, member, same ▸ checked⟩

/-- Nothing that two of three take opens the hash of a key. -/
theorem opensOnly_twoOfThree :
    Evaluator.verifiesSecondAndFourth.OpensOnly twoOfThreeWitness twoOfThree.keys := by
  have closed : ∀ element ∈ twoOfThreeWitness, ∀ key ∈ List.map pointOfByte [1, 2, 3, 4],
      HashKind.hash .hash160 element ≠ PublicKey.hash .ecdsa key := by
    decide +kernel
  rw [keys_twoOfThree]
  exact fun element member key listed opened => absurd opened (closed element member key listed)

/-- Two of three are accepted with two signatures and a secret, and hold as a policy. -/
theorem holds_of_accepts_twoOfThree : Validated .segwit twoOfThree ∧ twoOfThree.CountsBelow (2 ^ 64) ∧
    Evaluator.verifiesSecondAndFourth.OpensOnly twoOfThreeWitness twoOfThree.keys ∧
      Evaluator.verifiesSecondAndFourth.accepts (twoOfThree.script .segwit).bytes twoOfThreeWitness = true ∧
      twoOfThree.holds .verifiesSecondAndFourth twoOfThreeWitness = true ∧
      ∃ signature ∈ twoOfThreeWitness, ∃ key ∈ twoOfThree.keys,
        Evaluator.verifiesSecondAndFourth.checkSig (PublicKey.pushed .ecdsa key) signature = true := by
  have counts : twoOfThree.CountsBelow (2 ^ 64) := countsBelow_twoOfThree.mono (by decide)
  have accepted : Evaluator.verifiesSecondAndFourth.accepts (twoOfThree.script .segwit).bytes
      twoOfThreeWitness = true := by
    decide +kernel
  obtain ⟨holds, signed⟩ :=
    holds_of_accepts rfl validated_twoOfThree rfl counts opensOnly_twoOfThree accepted
  exact ⟨validated_twoOfThree, counts, opensOnly_twoOfThree, accepted, holds, signed rfl⟩

end Typed.Validated

end LockScript
