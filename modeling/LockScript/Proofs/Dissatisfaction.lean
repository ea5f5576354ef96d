import LockScript.Proofs.ThirdParty

/-! # Dissatisfactions

What the type of a condition says of its noes. Without a signature by one of its keys nobody can make
a safe condition answer yes, nor one without dissatisfaction answer no; and where the dissatisfaction
is unique, everyone can build it, and nobody finds another.
-/

namespace LockScript

theorem exists_forall₂ {α β : Type} {R : α → β → Prop} {items : List α}
    (each : ∀ x ∈ items, ∃ y, R x y) : ∃ others, List.Forall₂ R items others := by
  induction items with
  | nil => exact ⟨[], .nil⟩
  | cons x items ih =>
    obtain ⟨⟨y, first⟩, rest⟩ := List.forall_mem_cons.mp each
    obtain ⟨others, below⟩ := ih rest
    exact ⟨y :: others, .cons first below⟩

/-- Two lists are equal if they stand in relations to a third that only allow equal items. -/
theorem eq_of_forall₂ {α β : Type} {R S : α → β → Prop} {items : List α} {others others' : List β}
    (related : List.Forall₂ R items others) (related' : List.Forall₂ S items others')
    (same : ∀ x ∈ items, ∀ y y', R x y → S x y' → y = y') : others = others' := by
  induction related generalizing others' with
  | nil =>
    cases related'
    rfl
  | cons head _ ih =>
    cases related' with
    | cons head' related' =>
      obtain ⟨first, rest⟩ := List.forall_mem_cons.mp same
      rw [first _ _ head head', ih related' rest]

theorem Dissatisfaction.withZeroPath_ne_none (d : Dissatisfaction) : d.withZeroPath ≠ .none := by
  cases d <;> decide

theorem Dissatisfaction.withZeroPath_eq_unique {d : Dissatisfaction} :
    d.withZeroPath = .unique ↔ d = .none := by
  cases d <;> decide

namespace Malleability

variable {x y z : Malleability}

theorem andV_eq_none : (andV x y).dissatisfaction = .none ↔
    y.dissatisfaction = .none ∨ x.safe = true := by
  simp only [andV]
  split <;> simp [*]

theorem andV_ne_unique : (andV x y).dissatisfaction ≠ .unique := by
  simp only [andV]
  split <;> decide

theorem andB_eq_none : (andB x y).dissatisfaction = .none ↔
    x.dissatisfaction = .none ∧ (x.safe = true ∨ y.dissatisfaction = .none) ∨
      y.dissatisfaction = .none ∧ y.safe = true := by
  rcases x with ⟨_ | _ | _, _ | _, _⟩ <;> rcases y with ⟨_ | _ | _, _ | _, _⟩ <;> simp [andB]

theorem andB_eq_unique : (andB x y).dissatisfaction = .unique ↔
    (x.dissatisfaction = .unique ∧ x.safe = true) ∧ y.dissatisfaction = .unique ∧ y.safe = true := by
  rcases x with ⟨_ | _ | _, _ | _, _⟩ <;> rcases y with ⟨_ | _ | _, _ | _, _⟩ <;> simp [andB]

theorem orI_eq_none : (orI x y).dissatisfaction = .none ↔
    x.dissatisfaction = .none ∧ y.dissatisfaction = .none := by
  rcases x with ⟨_ | _ | _, _, _⟩ <;> rcases y with ⟨_ | _ | _, _, _⟩ <;> simp [orI]

theorem orI_eq_unique : (orI x y).dissatisfaction = .unique ↔
    x.dissatisfaction = .unique ∧ y.dissatisfaction = .none ∨
      x.dissatisfaction = .none ∧ y.dissatisfaction = .unique := by
  rcases x with ⟨_ | _ | _, _, _⟩ <;> rcases y with ⟨_ | _ | _, _, _⟩ <;> simp [orI]

theorem andOr_dissatisfaction {d : Dissatisfaction} (known : d ≠ .unknown) :
    (andOr x y z).dissatisfaction = d ↔
      (x.safe = true ∨ y.dissatisfaction = .none) ∧ z.dissatisfaction = d := by
  simp only [andOr]
  split <;> simp [*, known.symm]

theorem threshold_ne_none (k : Nat) (items : List Malleability) :
    (threshold k items).dissatisfaction ≠ .none := by
  simp only [threshold]
  split <;> decide

theorem threshold_eq_unique {k : Nat} {items : List Malleability} :
    (threshold k items).dissatisfaction = .unique ↔
      (∀ x ∈ items, x.dissatisfaction = .unique) ∧ ∀ x ∈ items, x.safe = true := by
  simp only [threshold]
  split <;> simp_all

/-! A condition is only non-malleable if its children are, and if those that choose between others
have unique dissatisfactions. -/

theorem nonMalleable_wrap (w : Wrapper) (x : Malleability) :
    (wrap w x).nonMalleable = x.nonMalleable := by
  cases w <;> rfl

theorem nonMalleable_pair {op : Connective} (nonMalleable : (pair op x y).nonMalleable = true) :
    x.nonMalleable = true ∧ y.nonMalleable = true ∧
      (op ∈ [.orB, .orD, .orC] → x.dissatisfaction = .unique) ∧
      (op = .orB → y.dissatisfaction = .unique) := by
  cases op <;> simp_all [pair, andV, andB, orB, orD, orC, orI]

theorem nonMalleable_andOr (nonMalleable : (andOr x y z).nonMalleable = true) :
    (x.nonMalleable = true ∧ x.dissatisfaction = .unique) ∧ y.nonMalleable = true ∧
      z.nonMalleable = true := by
  simp_all [andOr]

theorem nonMalleable_threshold {k : Nat} {items : List Malleability}
    (nonMalleable : (threshold k items).nonMalleable = true) :
    ∀ x ∈ items, x.nonMalleable = true ∧ x.dissatisfaction = .unique := by
  simp_all [threshold]

end Malleability

/-- What a type says of dissatisfactions agrees with what its soundness says: a unique one can be
found, and where there is none it cannot. -/
def FragmentType.Coherent (type : FragmentType) : Prop :=
  (type.malleability.dissatisfaction = .unique → type.soundness.dissatisfiable = true) ∧
    (type.malleability.dissatisfaction = .none → type.soundness.dissatisfiable = false)

instance (type : FragmentType) : Decidable type.Coherent :=
  inferInstanceAs (Decidable (_ ∧ _))

/-- The two views of dissatisfactions agree. -/
theorem Typed.Validated.coherent {κ δ : Type} [KeyLike κ] [DigestLike δ] {context : Context}
    {t : Typed κ δ} (valid : Validated context t) : t.type.Coherent := by
  induction t using Typed.induct with
  | leaf note l =>
    change note.type.Coherent
    rw [← valid.leaf.2]
    cases l <;> simp only [FragmentType.ofLeaf] <;> decide
  | wrap note w x ih =>
    obtain ⟨unique, none⟩ := ih valid.wrap.1
    change note.type.Coherent
    rw [FragmentType.Coherent, valid.malleability_wrap, valid.dissatisfiable_wrap]
    cases w with
    | alt | swap | check | zeroNotEqual => exact ⟨unique, none⟩
    | verify => exact ⟨nofun, fun _ => rfl⟩
    | dupIf | nonzero =>
      exact ⟨fun _ => rfl, fun absent => absurd absent (Dissatisfaction.withZeroPath_ne_none _)⟩
  | pair note op x y ihX ihY =>
    obtain ⟨uniqueX, noneX⟩ := ihX valid.pair.1
    obtain ⟨uniqueY, noneY⟩ := ihY valid.pair.2.1
    change note.type.Coherent
    rw [FragmentType.Coherent, valid.malleability_pair, valid.dissatisfiable_pair]
    cases op with
    | andV => exact ⟨fun unique => absurd unique Malleability.andV_ne_unique, fun _ => rfl⟩
    | orB => exact ⟨fun _ => rfl, nofun⟩
    | orC => exact ⟨nofun, fun _ => rfl⟩
    | orD => exact ⟨uniqueY, noneY⟩
    | andB =>
      refine ⟨fun unique => ?_, fun none => ?_⟩
      · obtain ⟨⟨unique, _⟩, unique', _⟩ := Malleability.andB_eq_unique.mp unique
        simp only [uniqueX unique, uniqueY unique', Bool.and_self]
      · rcases Malleability.andB_eq_none.mp none with ⟨none, _⟩ | ⟨none, _⟩
        · simp only [noneX none, Bool.false_and]
        · simp only [noneY none, Bool.and_false]
    | orI =>
      refine ⟨fun unique => ?_, fun none => ?_⟩
      · rcases Malleability.orI_eq_unique.mp unique with ⟨unique, _⟩ | ⟨_, unique⟩
        · simp only [uniqueX unique, Bool.true_or]
        · simp only [uniqueY unique, Bool.or_true]
      · obtain ⟨none, none'⟩ := Malleability.orI_eq_none.mp none
        simp only [noneX none, noneY none', Bool.or_self]
  | andOr note x y z _ _ ihZ =>
    obtain ⟨uniqueZ, noneZ⟩ := ihZ valid.andOr.2.2.1
    change note.type.Coherent
    rw [FragmentType.Coherent, valid.malleability_andOr, valid.dissatisfiable_andOr.2]
    exact ⟨fun unique => uniqueZ ((Malleability.andOr_dissatisfaction (by decide)).mp unique).2,
      fun none => noneZ ((Malleability.andOr_dissatisfaction (by decide)).mp none).2⟩
  | thresh note k items _ =>
    change note.type.Coherent
    rw [FragmentType.Coherent, valid.malleability_thresh, valid.dissatisfiable_thresh.2]
    exact ⟨fun _ => rfl, fun none => absurd none (Malleability.threshold_ne_none _ _)⟩

namespace Evaluator

variable {κ : Type} [PublicKey κ] {e : Evaluator} {keys others : List κ}

/-- No element is a signature by any of the keys. -/
def Unsigned (e : Evaluator) (keys : List κ) : Prop :=
  ∀ element, ¬e.SignedBy keys element

theorem Unsigned.mono (unsigned : e.Unsigned keys) (fewer : ∀ key ∈ others, key ∈ keys) :
    e.Unsigned others :=
  fun element signed => unsigned element (signed.mono fewer)

theorem Unsigned.append (unsigned : e.Unsigned (keys ++ others)) :
    e.Unsigned keys ∧ e.Unsigned others :=
  ⟨unsigned.mono fun _ => List.mem_append_left _, unsigned.mono fun _ => List.mem_append_right _⟩

theorem unsigned_flatMap {α : Type} {items : List α} {f : α → List κ}
    (unsigned : e.Unsigned (items.flatMap f)) {x : α} (member : x ∈ items) : e.Unsigned (f x) :=
  unsigned.mono fun _ own => List.mem_flatMap.mpr ⟨x, member, own⟩

/-- What anyone can put into a witness. -/
def Public (e : Evaluator) (keys : List κ) (element : Bytes) : Prop :=
  element = [] ∨ element = [1] ∨ ∃ key ∈ keys, element = PublicKey.pushed e.scheme key

theorem Public.mono {element : Bytes} (revealed : e.Public keys element)
    (more : ∀ key ∈ keys, key ∈ others) : e.Public others element := by
  obtain empty | one | ⟨key, member, same⟩ := revealed
  · exact .inl empty
  · exact .inr (.inl one)
  · exact .inr (.inr ⟨key, more key member, same⟩)

theorem OpensOnly.append {upper lower : List Bytes}
    (opens : e.OpensOnly (upper ++ lower) (keys ++ others)) :
    e.OpensOnly upper keys ∧ e.OpensOnly lower others :=
  ⟨opens.mono (fun _ => List.mem_append_left _) fun _ => List.mem_append_left _,
    opens.mono (fun _ => List.mem_append_right _) fun _ => List.mem_append_right _⟩

end Evaluator

namespace Typed.Validated

variable {κ : Type} [PublicKey κ] {e : Evaluator} {context : Context} {note : Attributes}
  {t : Typed κ Digest} {regular answer : Bool} {taken : List Bytes}

/-- The parts of a non-malleable condition are non-malleable. -/
theorem nonMalleable_of_mem_preorder (valid : Validated context t)
    (nonMalleable : t.type.malleability.nonMalleable = true) {x : Typed κ Digest}
    (below : x ∈ Traversal.preorder t) : x.type.malleability.nonMalleable = true := by
  induction t using Condition.induct_children with
  | node t ih =>
    obtain rfl | ⟨y, member, below⟩ := (Condition.mem_preorder_iff t x).mp below
    · exact nonMalleable
    refine ih y member (valid.child member) ?_ below
    cases t with
    | leaf note l => cases member
    | wrap note w x =>
      change note.type.malleability.nonMalleable = true at nonMalleable
      rw [valid.malleability_wrap, Malleability.nonMalleable_wrap] at nonMalleable
      rwa [List.mem_singleton.mp member]
    | pair note op x z =>
      obtain ⟨nonMalleableX, nonMalleableZ, _⟩ :=
        Malleability.nonMalleable_pair (valid.malleability_pair ▸ nonMalleable)
      obtain rfl | rfl := List.mem_pair.mp member <;> assumption
    | andOr note u v w =>
      obtain ⟨⟨nonMalleableU, _⟩, nonMalleableV, nonMalleableW⟩ :=
        Malleability.nonMalleable_andOr (valid.malleability_andOr ▸ nonMalleable)
      simp only [Condition.children_andOr, List.mem_cons, List.not_mem_nil, or_false] at member
      obtain rfl | rfl | rfl := member <;> assumption
    | thresh note k items =>
      have each := Malleability.nonMalleable_threshold (valid.malleability_thresh ▸ nonMalleable)
      exact (List.forall_mem_map.mp each y member).1

/-- A condition that verifies never answers no. -/
theorem yes_of_verify (valid : Validated context t) (base : t.type.soundness.base = .V)
    (run : t.Answers e regular answer taken) : answer = true := by
  induction t using Typed.induct generalizing answer taken with
  | leaf note l =>
    have typed := congrArg (fun type => type.soundness.base) valid.leaf.2
    rw [show note.type.soundness.base = .V from base] at typed
    cases l <;> cases typed
  | wrap note w x ih =>
    have validX := valid.wrap.1
    change note.type.soundness.base = .V at base
    rw [Condition.answers_wrap] at run
    cases w with
    | verify => exact run.1
    | alt | swap | check | dupIf | nonzero | zeroNotEqual =>
      have made := valid.soundness_wrap
      simp only [Soundness.wrap, Soundness.alt_eq_ok, Soundness.swap_eq_ok, Soundness.check_eq_ok,
        Soundness.dupIf_eq_ok, Soundness.nonzero_eq_ok, Soundness.zeroNotEqual_eq_ok] at made
      grind
  | pair note op x y ihX ihY =>
    obtain ⟨validX, validY, _⟩ := valid.pair
    change note.type.soundness.base = .V at base
    rw [Condition.answers_pair] at run
    cases op with
    | andV =>
      obtain ⟨_, _, same⟩ := Soundness.andV_eq_ok.mp valid.soundness_pair
      rw [← same] at base
      obtain ⟨⟨_, _, _, _, right⟩, _⟩ := run
      exact ihY validY base right
    | orC =>
      obtain ⟨_, _, _, baseY, _⟩ := Soundness.orC_eq_ok.mp valid.soundness_pair
      obtain ⟨yes, _⟩ | ⟨_, _, _, _, right⟩ := run
      · exact yes
      · exact ihY validY baseY right
    | orI =>
      obtain ⟨equal, _, same⟩ := Soundness.orI_eq_ok.mp valid.soundness_pair
      rw [← same] at base
      obtain ⟨_, ⟨_, left⟩ | ⟨_, right⟩⟩ := run
      · exact ihX validX (equal.trans base) left
      · exact ihY validY base right
    | andB | orB | orD =>
      have made := valid.soundness_pair
      simp only [Soundness.pair, Soundness.andB_eq_ok, Soundness.orB_eq_ok, Soundness.orD_eq_ok] at made
      grind
  | andOr note x y z ihX ihY ihZ =>
    obtain ⟨_, validY, validZ, _⟩ := valid.andOr
    change note.type.soundness.base = .V at base
    obtain ⟨_, _, _, equal, _, same⟩ := Soundness.andOr_eq_ok.mp valid.soundness_andOr
    rw [← same] at base
    rw [Condition.answers_andOr] at run
    obtain ⟨⟨_, _, _, _, right⟩, _⟩ | ⟨_, _, _, _, right⟩ := run
    · exact ihY validY (equal.trans base) right
    · exact ihZ validZ base right
  | thresh note k items ih =>
    obtain ⟨_, positive, bounded, _⟩ := valid.thresh
    obtain ⟨first, rest, rfl⟩ := List.exists_cons_of_length_pos (Nat.lt_of_lt_of_le positive bounded)
    change note.type.soundness.base = .V at base
    obtain ⟨_, _, _, same⟩ := Soundness.threshold_eq_ok.mp valid.soundness_thresh
    rw [← same] at base
    cases base

/-- Without a signature nobody satisfies a safe condition. -/
theorem not_yes_of_safe (valid : Validated context t) (safe : t.type.malleability.safe = true)
    (unsigned : e.Unsigned t.keys) (opens : e.OpensOnly taken t.keys) :
    ¬t.Answers e regular true taken := by
  intro run
  have holds := Condition.holds_of_yes run (fun _ => id) opens
  obtain ⟨key, member, signed⟩ := valid.exists_signature safe holds
  obtain ⟨signature, _, checked⟩ := List.any_eq_true.mp signed
  exact unsigned signature ⟨key, member, checked⟩

/-- Without a signature nobody dissatisfies a condition that has no dissatisfaction. -/
theorem not_no_of_none (valid : Validated context t)
    (none : t.type.malleability.dissatisfaction = .none) (unsigned : e.Unsigned t.keys)
    (opens : e.OpensOnly taken t.keys) : ¬t.Answers e regular false taken := by
  intro run
  induction t using Typed.induct generalizing taken with
  | leaf note l =>
    change note.type.malleability.dissatisfaction = .none at none
    rw [valid.malleability_leaf] at none
    rw [Condition.answers_leaf] at run
    cases l with
    | one | after lock | older lock => cases run.1
    | zero | key k | keyHash k | digest d | multi ks | multiA ks => cases none
  | wrap note w x ih =>
    obtain ⟨validX, _⟩ := valid.wrap
    change note.type.malleability.dissatisfaction = .none at none
    rw [valid.malleability_wrap] at none
    rw [Condition.answers_wrap] at run
    rw [Condition.keys_wrap] at unsigned opens
    cases w with
    | alt | swap | check | zeroNotEqual => exact ih validX none unsigned opens run
    | dupIf | nonzero => exact Dissatisfaction.withZeroPath_ne_none _ none
    | verify => cases run.1
  | pair note op x y ihX ihY =>
    obtain ⟨validX, validY, _⟩ := valid.pair
    change note.type.malleability.dissatisfaction = .none at none
    rw [valid.malleability_pair] at none
    rw [Condition.answers_pair] at run
    rw [Condition.keys_pair] at unsigned opens
    obtain ⟨unsignedX, unsignedY⟩ := unsigned.append
    cases op with
    | andV =>
      obtain ⟨⟨upper, lower, rfl, left, right⟩, _⟩ := run
      obtain ⟨opensX, opensY⟩ := opens.append
      rcases Malleability.andV_eq_none.mp none with none | safe
      · exact ihY validY none unsignedY opensY right
      · exact validX.not_yes_of_safe safe unsignedX opensX left
    | andB =>
      obtain ⟨first, second, ⟨upper, lower, rfl, left, right⟩, either, _⟩ := run
      obtain ⟨opensX, opensY⟩ := opens.append
      rcases Malleability.andB_eq_none.mp none with ⟨noneX, safe | noneY⟩ | ⟨noneY, safe⟩
      · cases first with
        | true => exact validX.not_yes_of_safe safe unsignedX opensX left
        | false => exact ihX validX noneX unsignedX opensX left
      · rcases Bool.and_eq_false_iff.mp either.symm with rfl | rfl
        · exact ihX validX noneX unsignedX opensX left
        · exact ihY validY noneY unsignedY opensY right
      · cases second with
        | true => exact validY.not_yes_of_safe safe unsignedY opensY right
        | false => exact ihY validY noneY unsignedY opensY right
    | orB => cases none
    | orD =>
      obtain ⟨yes, _⟩ | ⟨upper, lower, rfl, _, right⟩ := run
      · cases yes
      · exact ihY validY none unsignedY opens.append.2 right
    | orC =>
      obtain ⟨_, _, _, base, _⟩ := Soundness.orC_eq_ok.mp valid.soundness_pair
      obtain ⟨yes, _⟩ | ⟨_, _, _, _, right⟩ := run
      · cases yes
      · cases validY.yes_of_verify base right
    | orI =>
      obtain ⟨noneX, noneY⟩ := Malleability.orI_eq_none.mp none
      obtain ⟨rest, ⟨rfl, left⟩ | ⟨rfl, right⟩⟩ := run
      · exact ihX validX noneX unsignedX (opens.mono (fun _ => List.mem_cons_of_mem _)
          fun _ => List.mem_append_left _) left
      · exact ihY validY noneY unsignedY (opens.mono (fun _ => List.mem_cons_of_mem _)
          fun _ => List.mem_append_right _) right
  | andOr note x y z ihX ihY ihZ =>
    obtain ⟨validX, validY, validZ, _⟩ := valid.andOr
    change note.type.malleability.dissatisfaction = .none at none
    rw [valid.malleability_andOr] at none
    rw [Condition.answers_andOr] at run
    rw [Condition.keys_andOr] at unsigned opens
    obtain ⟨unsigned, unsignedZ⟩ := unsigned.append
    obtain ⟨unsignedX, unsignedY⟩ := unsigned.append
    obtain ⟨either, noneZ⟩ := (Malleability.andOr_dissatisfaction (by decide)).mp none
    obtain ⟨⟨upper, lower, rfl, left, right⟩, _⟩ | ⟨upper, lower, rfl, _, right⟩ := run
    · rcases either with safe | noneY
      · exact validX.not_yes_of_safe safe unsignedX
          (opens.mono (fun _ => List.mem_append_left _) (by simp +contextual)) left
      · exact ihY validY noneY unsignedY
          (opens.mono (fun _ => List.mem_append_right _) (by simp +contextual)) right
    · exact ihZ validZ noneZ unsignedZ opens.append.2 right
  | thresh note k items ih =>
    change note.type.malleability.dissatisfaction = .none at none
    rw [valid.malleability_thresh] at none
    exact Malleability.threshold_ne_none _ _ none

end Typed.Validated

/-- A stack that anyone can build and on which a condition regularly answers no; without a signature
there is no other. -/
structure Condition.SoleNo {κ α : Type} [PublicKey κ] (e : Evaluator) (t : Condition κ Digest α)
    (taken : List Bytes) : Prop where
  run : t.Answers e true false taken
  revealed : ∀ element ∈ taken, e.Public t.keys element
  sole : e.Unsigned t.keys → ∀ regular other, e.OpensOnly other t.keys →
    t.Answers e regular false other → other = taken

namespace Condition.SoleNo

variable {κ α : Type} [PublicKey κ] {e : Evaluator} {note : α}

private theorem eq_nil_of_no (strict : e.nullFail = true) {key signature : Bytes}
    (verdict : e.sigVerdict? key signature = some false) : signature = [] :=
  (Evaluator.sigVerdict?_eq_some.mp verdict).2 strict rfl

theorem zero : SoleNo e (leaf note .zero : Condition κ Digest α) [] where
  run := by
    rw [answers_leaf]
    exact ⟨rfl, rfl⟩
  revealed := List.forall_mem_nil _
  sole _ regular other _ run := by
    rw [answers_leaf] at run
    exact run.2

theorem key (strict : e.nullFail = true) (k : κ) :
    SoleNo e (leaf note (.key k) : Condition κ Digest α) [[]] where
  run := by
    rw [answers_leaf]
    exact ⟨[], rfl, Evaluator.sigVerdict?_nil _⟩
  revealed := List.forall_mem_singleton.mpr (.inl rfl)
  sole _ regular other _ run := by
    rw [answers_leaf] at run
    obtain ⟨signature, rfl, verdict⟩ := run
    rw [eq_nil_of_no strict verdict]

theorem keyHash (strict : e.nullFail = true) (k : κ) :
    SoleNo e (leaf note (.keyHash k) : Condition κ Digest α)
      [PublicKey.pushed e.scheme k, []] where
  run := by
    rw [answers_leaf]
    exact ⟨_, [], rfl, rfl, Evaluator.sigVerdict?_nil _⟩
  revealed := by
    rw [keys_leaf]
    exact List.forall_mem_cons.mpr ⟨.inr (.inr ⟨k, List.mem_cons_self, rfl⟩),
      List.forall_mem_singleton.mpr (.inl rfl)⟩
  sole _ regular other opens run := by
    rw [answers_leaf] at run
    rw [keys_leaf] at opens
    obtain ⟨key, signature, rfl, opened, verdict⟩ := run
    rw [opens key List.mem_cons_self k List.mem_cons_self opened, eq_nil_of_no strict verdict]

theorem multi (strict : e.nullFail = true) (ks : Threshold κ multiCap) :
    SoleNo e (leaf note (.multi ks) : Condition κ Digest α) (List.replicate (ks.k + 1) []) where
  run := by
    rw [answers_leaf]
    refine ⟨List.replicate ks.k [], List.replicate_succ', List.length_replicate, ?_⟩
    rw [List.reverse_replicate]
    exact Evaluator.verdict?_replicate_nil ks.k_pos _
  revealed element member := .inl (List.eq_of_mem_replicate member)
  sole _ regular other _ run := by
    rw [answers_leaf] at run
    obtain ⟨signatures, rfl, exact, verdict⟩ := run
    have empty := (Evaluator.verdict?_eq_some.mp verdict).2 strict rfl
    rw [List.eq_replicate_iff.mpr ⟨exact, empty⟩, List.replicate_succ']

theorem multiA (strict : e.nullFail = true) (ks : Threshold κ multiACap) :
    SoleNo e (leaf note (.multiA ks) : Condition κ Digest α)
      (List.replicate ks.items.length []) where
  run := by
    have counted := e.countSigs?_replicate_nil (ks.items.map (PublicKey.pushed e.scheme))
    rw [List.length_map] at counted
    rw [answers_leaf]
    exact ⟨0, counted, (beq_eq_false_iff_ne.mpr (Nat.ne_of_lt ks.k_pos)).symm, fun _ => .inl rfl⟩
  revealed element member := .inl (List.eq_of_mem_replicate member)
  sole unsigned regular other _ run := by
    rw [answers_leaf] at run
    rw [keys_leaf] at unsigned
    obtain ⟨count, counted, _⟩ := run
    have width := (Evaluator.length_of_countSigs? counted).1
    rw [List.length_map] at width
    refine List.eq_replicate_iff.mpr ⟨width, fun element member => ?_⟩
    obtain ⟨places, verdicts, rfl, _⟩ := Evaluator.countSigs?_eq_some.mp counted
    obtain ⟨⟨passed, element⟩, among, rfl⟩ := List.mem_map.mp member
    obtain ⟨pushed, within, verdict⟩ := exists_of_mem_forall₂ verdicts among
    cases passed with
    | false => exact eq_nil_of_no strict verdict
    | true =>
      obtain ⟨key, listed, rfl⟩ := List.mem_map.mp within
      exact absurd ⟨key, listed, Evaluator.sigVerdict?_true.mp verdict⟩ (unsigned element)

variable {x y : Condition κ Digest α} {first second : List Bytes}

/-- A wrapper that does not touch the answers. -/
theorem wrap (no : SoleNo e x first) {w : Wrapper}
    (same : ∀ regular, AnswerRel.wrap regular w (x.Answers e regular) = x.Answers e regular) :
    SoleNo e (.wrap note w x) first where
  run := by
    rw [answers_wrap, same]
    exact no.run
  revealed := by
    rw [keys_wrap]
    exact no.revealed
  sole unsigned regular other opens run := by
    rw [answers_wrap, same] at run
    rw [keys_wrap] at unsigned opens
    exact no.sole unsigned regular other opens run

/-- Two noes one after the other. -/
theorem both (noX : SoleNo e x first) (noY : SoleNo e y second) {keys : List κ}
    (subX : ∀ key ∈ x.keys, key ∈ keys) (subY : ∀ key ∈ y.keys, key ∈ keys) :
    AnswerRel.Both (x.Answers e true) (y.Answers e true) false false (first ++ second) ∧
      (∀ element ∈ first ++ second, e.Public keys element) ∧
      (e.Unsigned keys → ∀ regular other, e.OpensOnly other keys →
        AnswerRel.Both (x.Answers e regular) (y.Answers e regular) false false other →
          other = first ++ second) := by
  refine ⟨⟨first, second, rfl, noX.run, noY.run⟩, List.forall_mem_append.mpr
    ⟨fun element member => (noX.revealed element member).mono subX,
      fun element member => (noY.revealed element member).mono subY⟩, ?_⟩
  rintro unsigned regular _ opens ⟨upper, lower, rfl, left, right⟩
  rw [noX.sole (unsigned.mono subX) regular upper
      (opens.mono (fun _ => List.mem_append_left _) subX) left,
    noY.sole (unsigned.mono subY) regular lower
      (opens.mono (fun _ => List.mem_append_right _) subY) right]

end Condition.SoleNo

namespace Typed.Validated

variable {κ : Type} [PublicKey κ] {e : Evaluator} {context : Context} {note : Attributes}
  {t : Typed κ Digest}

/-- A child that an empty element skips, and that has no dissatisfaction of its own. -/
private theorem soleNo_skip {w : Wrapper} {x : Typed κ Digest}
    (skips : AnswerRel.wrap true w (x.Answers e true) false [[]])
    (only : e.Unsigned x.keys → ∀ regular other, e.OpensOnly other x.keys →
      AnswerRel.wrap regular w (x.Answers e regular) false other → other = [[]]) :
    Condition.SoleNo e (.wrap note w x : Typed κ Digest) [[]] where
  run := by
    rw [Condition.answers_wrap]
    exact skips
  revealed := List.forall_mem_singleton.mpr (.inl rfl)
  sole unsigned regular other opens run := by
    rw [Condition.answers_wrap] at run
    rw [Condition.keys_wrap] at unsigned opens
    exact only unsigned regular other opens run

private theorem soleNo_wrap {w : Wrapper} {x : Typed κ Digest}
    (valid : Validated context (.wrap note w x))
    (unique : note.type.malleability.dissatisfaction = .unique)
    (below : x.type.malleability.dissatisfaction = .unique → ∃ taken, Condition.SoleNo e x taken) :
    ∃ taken, Condition.SoleNo e (.wrap note w x : Typed κ Digest) taken := by
  obtain ⟨validX, _⟩ := valid.wrap
  rw [valid.malleability_wrap] at unique
  cases w with
  | alt | swap | check | zeroNotEqual =>
    obtain ⟨taken, no⟩ := below unique
    exact ⟨taken, no.wrap fun _ => rfl⟩
  | verify => cases unique
  | dupIf =>
    refine ⟨[[]], soleNo_skip (.inl ⟨rfl, rfl⟩) fun _ regular other _ run => ?_⟩
    obtain ⟨_, same⟩ | ⟨yes, _⟩ := run
    · exact same
    · cases yes
  | nonzero =>
    refine ⟨[[]], soleNo_skip (.inl ⟨rfl, rfl⟩) fun unsigned regular other opens run => ?_⟩
    obtain ⟨_, same⟩ | ⟨_, _, _, _, _, run, _⟩ := run
    · exact same
    · exact absurd run (validX.not_no_of_none
        (Dissatisfaction.withZeroPath_eq_unique.mp unique) unsigned opens)

private theorem soleNo_pair {op : Connective} {x y : Typed κ Digest}
    (valid : Validated context (.pair note op x y))
    (nonMalleable : note.type.malleability.nonMalleable = true)
    (unique : note.type.malleability.dissatisfaction = .unique)
    (first : x.type.malleability.dissatisfaction = .unique → ∃ taken, Condition.SoleNo e x taken)
    (second : y.type.malleability.dissatisfaction = .unique → ∃ taken, Condition.SoleNo e y taken) :
    ∃ taken, Condition.SoleNo e (.pair note op x y : Typed κ Digest) taken := by
  obtain ⟨validX, validY, _⟩ := valid.pair
  rw [valid.malleability_pair] at nonMalleable unique
  obtain ⟨_, _, uniqueX, uniqueY⟩ := Malleability.nonMalleable_pair nonMalleable
  have subX (key : κ) (member : key ∈ x.keys) : key ∈ x.keys ++ y.keys :=
    List.mem_append_left _ member
  have subY (key : κ) (member : key ∈ y.keys) : key ∈ x.keys ++ y.keys :=
    List.mem_append_right _ member
  cases op with
  | andV => exact absurd unique Malleability.andV_ne_unique
  | orC => cases unique
  | andB =>
    obtain ⟨⟨uniqueX, safeX⟩, uniqueY, safeY⟩ := Malleability.andB_eq_unique.mp unique
    obtain ⟨upper, noX⟩ := first uniqueX
    obtain ⟨lower, noY⟩ := second uniqueY
    obtain ⟨run, revealed, sole⟩ := noX.both noY subX subY
    refine ⟨upper ++ lower, ?_, ?_, ?_⟩
    · rw [Condition.answers_pair]
      exact ⟨false, false, run, rfl, fun _ => rfl⟩
    · rwa [Condition.keys_pair]
    · intro unsigned regular other opens run
      rw [Condition.keys_pair] at unsigned opens
      rw [Condition.answers_pair] at run
      obtain ⟨one, two, ⟨above, below, rfl, left, right⟩, _⟩ := run
      -- Neither child can be satisfied, so both answered no.
      cases one with
      | true => exact absurd left (validX.not_yes_of_safe safeX unsigned.append.1 opens.append.1)
      | false =>
        cases two with
        | true => exact absurd right (validY.not_yes_of_safe safeY unsigned.append.2 opens.append.2)
        | false => exact sole unsigned regular _ opens ⟨above, below, rfl, left, right⟩
  | orB =>
    obtain ⟨upper, noX⟩ := first (uniqueX (by simp))
    obtain ⟨lower, noY⟩ := second (uniqueY rfl)
    obtain ⟨run, revealed, sole⟩ := noX.both noY subX subY
    refine ⟨upper ++ lower, ?_, ?_, ?_⟩
    · rw [Condition.answers_pair]
      exact ⟨false, false, run, rfl, fun _ => .inl rfl⟩
    · rwa [Condition.keys_pair]
    · intro unsigned regular other opens run
      rw [Condition.keys_pair] at unsigned opens
      rw [Condition.answers_pair] at run
      obtain ⟨one, two, run, either, _⟩ := run
      obtain ⟨rfl, rfl⟩ := Bool.or_eq_false_iff.mp either.symm
      exact sole unsigned regular other opens run
  | orD =>
    obtain ⟨upper, noX⟩ := first (uniqueX (by simp))
    obtain ⟨lower, noY⟩ := second unique
    obtain ⟨run, revealed, sole⟩ := noX.both noY subX subY
    refine ⟨upper ++ lower, ?_, ?_, ?_⟩
    · rw [Condition.answers_pair]
      exact .inr run
    · rwa [Condition.keys_pair]
    · intro unsigned regular other opens run
      rw [Condition.keys_pair] at unsigned opens
      rw [Condition.answers_pair] at run
      obtain ⟨yes, _⟩ | run := run
      · cases yes
      · exact sole unsigned regular other opens run
  | orI =>
    have opensX {top : Bytes} {rest : List Bytes}
        (opens : e.OpensOnly (top :: rest) (x.keys ++ y.keys)) : e.OpensOnly rest x.keys :=
      opens.mono (fun _ => List.mem_cons_of_mem _) subX
    have opensY {top : Bytes} {rest : List Bytes}
        (opens : e.OpensOnly (top :: rest) (x.keys ++ y.keys)) : e.OpensOnly rest y.keys :=
      opens.mono (fun _ => List.mem_cons_of_mem _) subY
    rcases Malleability.orI_eq_unique.mp unique with ⟨uniqueX, noneY⟩ | ⟨noneX, uniqueY⟩
    · obtain ⟨rest, no⟩ := first uniqueX
      refine ⟨[1] :: rest, ?_, ?_, ?_⟩
      · rw [Condition.answers_pair]
        exact ⟨rest, .inl ⟨rfl, no.run⟩⟩
      · rw [Condition.keys_pair]
        exact List.forall_mem_cons.mpr ⟨.inr (.inl rfl),
          fun element member => (no.revealed element member).mono subX⟩
      · intro unsigned regular other opens run
        rw [Condition.keys_pair] at unsigned opens
        rw [Condition.answers_pair] at run
        obtain ⟨below, ⟨rfl, run⟩ | ⟨rfl, run⟩⟩ := run
        · rw [no.sole unsigned.append.1 regular below (opensX opens) run]
        · exact absurd run (validY.not_no_of_none noneY unsigned.append.2 (opensY opens))
    · obtain ⟨rest, no⟩ := second uniqueY
      refine ⟨[] :: rest, ?_, ?_, ?_⟩
      · rw [Condition.answers_pair]
        exact ⟨rest, .inr ⟨rfl, no.run⟩⟩
      · rw [Condition.keys_pair]
        exact List.forall_mem_cons.mpr ⟨.inl rfl,
          fun element member => (no.revealed element member).mono subY⟩
      · intro unsigned regular other opens run
        rw [Condition.keys_pair] at unsigned opens
        rw [Condition.answers_pair] at run
        obtain ⟨below, ⟨rfl, run⟩ | ⟨rfl, run⟩⟩ := run
        · exact absurd run (validX.not_no_of_none noneX unsigned.append.1 (opensX opens))
        · rw [no.sole unsigned.append.2 regular below (opensY opens) run]

private theorem soleNo_andOr {x y z : Typed κ Digest}
    (valid : Validated context (.andOr note x y z))
    (nonMalleable : note.type.malleability.nonMalleable = true)
    (unique : note.type.malleability.dissatisfaction = .unique)
    (first : x.type.malleability.dissatisfaction = .unique → ∃ taken, Condition.SoleNo e x taken)
    (third : z.type.malleability.dissatisfaction = .unique → ∃ taken, Condition.SoleNo e z taken) :
    ∃ taken, Condition.SoleNo e (.andOr note x y z : Typed κ Digest) taken := by
  obtain ⟨validX, validY, _, _⟩ := valid.andOr
  rw [valid.malleability_andOr] at nonMalleable unique
  obtain ⟨⟨_, uniqueX⟩, _, _⟩ := Malleability.nonMalleable_andOr nonMalleable
  obtain ⟨either, uniqueZ⟩ := (Malleability.andOr_dissatisfaction (by decide)).mp unique
  obtain ⟨upper, noX⟩ := first uniqueX
  obtain ⟨lower, noZ⟩ := third uniqueZ
  have subX : ∀ key ∈ x.keys, key ∈ x.keys ++ y.keys ++ z.keys := by simp +contextual
  have subZ : ∀ key ∈ z.keys, key ∈ x.keys ++ y.keys ++ z.keys := by simp +contextual
  obtain ⟨run, revealed, sole⟩ := noX.both noZ subX subZ
  refine ⟨upper ++ lower, ?_, ?_, ?_⟩
  · rw [Condition.answers_andOr]
    exact .inr run
  · rwa [Condition.keys_andOr]
  · intro unsigned regular other opens run
    rw [Condition.keys_andOr] at unsigned opens
    rw [Condition.answers_andOr] at run
    obtain ⟨unsignedX, unsignedY⟩ := unsigned.append.1.append
    obtain ⟨⟨above, below, rfl, left, right⟩, _⟩ | run := run
    · rcases either with safe | noneY
      · exact absurd left (validX.not_yes_of_safe safe unsignedX
          (opens.mono (fun _ => List.mem_append_left _) (by simp +contextual)))
      · exact absurd right (validY.not_no_of_none noneY unsignedY
          (opens.mono (fun _ => List.mem_append_right _) (by simp +contextual)))
    · exact sole unsigned regular other opens run

private theorem soleNo_thresh {k : Nat} {items : List (Typed κ Digest)}
    (valid : Validated context (.thresh note k items))
    (unique : note.type.malleability.dissatisfaction = .unique)
    (below : ∀ x ∈ items, x.type.malleability.dissatisfaction = .unique →
      ∃ taken, Condition.SoleNo e x taken) :
    ∃ taken, Condition.SoleNo e (.thresh note k items : Typed κ Digest) taken := by
  obtain ⟨validBelow, positive, _, _⟩ := valid.thresh
  rw [valid.malleability_thresh, Malleability.threshold_eq_unique] at unique
  simp only [List.forall_mem_map] at unique
  obtain ⟨uniqueBelow, safeBelow⟩ := unique
  obtain ⟨noes, each⟩ := exists_forall₂ fun x member => below x member (uniqueBelow x member)
  have own {x : Typed κ Digest} (member : x ∈ items) (key : κ) (within : key ∈ x.keys) :
      key ∈ items.flatMap Condition.keys :=
    List.mem_flatMap.mpr ⟨x, member, within⟩
  have none (noes : List (List Bytes)) : (noes.map (false, ·)).countP Prod.fst = 0 :=
    List.countP_eq_zero.mpr (by simp)
  refine ⟨noes.flatten, ?_, ?_, ?_⟩
  · rw [Condition.answers_thresh]
    refine ⟨noes.map (false, ·), ?_, ?_, ?_, ?_, fun _ => .inl ?_⟩
    · rw [List.forall₂_map_left_iff, List.forall₂_map_right_iff]
      exact each.imp fun _ _ no => no.run
    · simp [List.flatMap_map]
    · rw [← List.map_dropLast, none]
      decide
    · rw [none, beq_eq_false_iff_ne.mpr (Nat.ne_of_lt positive)]
    · exact none noes
  · rw [Condition.keys_thresh]
    intro element member
    obtain ⟨no, among, within⟩ := List.mem_flatten.mp member
    obtain ⟨x, listed, sole⟩ := exists_of_mem_forall₂ each among
    exact (sole.revealed element within).mono (own listed)
  · intro unsigned regular other opens run
    rw [Condition.keys_thresh] at unsigned opens
    rw [Condition.answers_thresh] at run
    obtain ⟨parts, runs, rfl, _⟩ := run
    rw [List.forall₂_map_left_iff] at runs
    -- No child can be satisfied, so each gave its only no.
    have same : parts = noes.map (false, ·) := by
      have each' : List.Forall₂ (fun x part => ∃ no, part = (false, no) ∧ Condition.SoleNo e x no)
          items (noes.map (false, ·)) := by
        rw [List.forall₂_map_right_iff]
        exact each.imp fun _ no sole => ⟨no, rfl, sole⟩
      have runs' : List.Forall₂ (fun x (part : Bool × List Bytes) =>
          x.Answers e regular part.1 part.2 ∧ e.OpensOnly part.2 x.keys) items parts :=
        forall₂_imp_of_mem (fun x member part among run => ⟨run, opens.mono
          (fun element taken => List.mem_flatMap.mpr ⟨part, among, taken⟩) (own member)⟩) runs
      refine eq_of_forall₂ runs' each' ?_
      rintro x member ⟨answer, taken⟩ _ ⟨run, opens⟩ ⟨no, rfl, sole⟩
      have unsignedX := Evaluator.unsigned_flatMap unsigned member
      cases answer with
      | true =>
        exact absurd run
          ((validBelow x member).not_yes_of_safe (safeBelow x member) unsignedX opens)
      | false => rw [sole.sole unsignedX regular taken opens run]
    rw [same, List.flatMap_map, List.flatMap_id']

/-- Where the dissatisfaction is unique there is one that everyone can build, and without a signature
there is no other. -/
theorem exists_soleNo (strict : e.nullFail = true) (valid : Validated context t)
    (nonMalleable : t.type.malleability.nonMalleable = true)
    (unique : t.type.malleability.dissatisfaction = .unique) :
    ∃ taken, Condition.SoleNo e t taken := by
  induction t using Typed.induct with
  | leaf note l =>
    change note.type.malleability.dissatisfaction = .unique at unique
    rw [valid.malleability_leaf] at unique
    cases l with
    | zero => exact ⟨_, .zero⟩
    | key k => exact ⟨_, .key strict k⟩
    | keyHash k => exact ⟨_, .keyHash strict k⟩
    | multi ks => exact ⟨_, .multi strict ks⟩
    | multiA ks => exact ⟨_, .multiA strict ks⟩
    | one | after lock | older lock | digest d => cases unique
  | wrap note w x ih =>
    change note.type.malleability.nonMalleable = true at nonMalleable
    refine valid.soleNo_wrap unique (ih valid.wrap.1 ?_)
    rwa [valid.malleability_wrap, Malleability.nonMalleable_wrap] at nonMalleable
  | pair note op x y ihX ihY =>
    obtain ⟨validX, validY, _⟩ := valid.pair
    change note.type.malleability.nonMalleable = true at nonMalleable
    obtain ⟨nonMalleableX, nonMalleableY, _⟩ :=
      Malleability.nonMalleable_pair (valid.malleability_pair ▸ nonMalleable)
    exact valid.soleNo_pair nonMalleable unique (ihX validX nonMalleableX)
      (ihY validY nonMalleableY)
  | andOr note x y z ihX _ ihZ =>
    obtain ⟨validX, _, validZ, _⟩ := valid.andOr
    change note.type.malleability.nonMalleable = true at nonMalleable
    obtain ⟨⟨nonMalleableX, _⟩, _, nonMalleableZ⟩ :=
      Malleability.nonMalleable_andOr (valid.malleability_andOr ▸ nonMalleable)
    exact valid.soleNo_andOr nonMalleable unique (ihX validX nonMalleableX)
      (ihZ validZ nonMalleableZ)
  | thresh note k items ih =>
    change note.type.malleability.nonMalleable = true at nonMalleable
    have below := Malleability.nonMalleable_threshold (valid.malleability_thresh ▸ nonMalleable)
    rw [List.forall_mem_map] at below
    exact valid.soleNo_thresh unique fun x member =>
      ih x member (valid.thresh.1 x member) (below x member).1

end Typed.Validated

end LockScript
