import LockScript.Proofs.Candidates

/-! # More material never hurts

One material covers another if it answers all that the other does, be it with other values, and meets
the same locks. What is found for a leaf may then change, but nothing is lost: every answer that had a
stack still has one. So it is for the candidates of a whole condition, whatever the choices, and the
liberal search, which finds a stack wherever there is a candidate, succeeds with the richer material
as well.
-/

namespace LockScript

/-- Whatever one material answers the other answers too, and it meets every lock that the other meets.
-/
structure Material.Covers {κ : Type} (more less : Material κ) : Prop where
  ecdsa {key : κ} : (less.ecdsa key).isSome → (more.ecdsa key).isSome
  schnorr {key : κ} {leaf : LeafHash} : (less.schnorr key leaf).isSome → (more.schnorr key leaf).isSome
  secret {digest : Digest} : (less.secret digest).isSome → (more.secret digest).isSome
  meetsOlder {lock : RelativeLock} : less.meetsOlder lock = true → more.meetsOlder lock = true
  meetsAfter {lock : AbsoluteLock} : less.meetsAfter lock = true → more.meetsAfter lock = true

namespace Material.Covers

variable {κ : Type} {more less : Material κ}

theorem signature? (covers : more.Covers less) {scheme : SignatureScheme} {leaf : LeafHash} {key : κ}
    (signed : (less.signature? scheme leaf key).isSome) : (more.signature? scheme leaf key).isSome := by
  cases scheme with
  | ecdsa => exact covers.ecdsa signed
  | schnorr => exact covers.schnorr signed

/-- What is put in front of a material may answer in its place, but takes nothing away. -/
theorem orElse (first second : Material κ) : (first.orElse second).Covers second := by
  constructor <;> simp_all [Material.orElse]

end Material.Covers

/-! ## Which leaves can be satisfied -/

namespace Search

variable {κ : Type} (search : Search κ)

/-- Whether there is a signature by a key. -/
def hasSigned (key : κ) : Bool :=
  (search.material.signature? search.scheme search.leafHash key).isSome

theorem exists_signature_iff {key : κ} :
    (∃ items, search.signature key = .stack items) ↔ search.hasSigned key = true := by
  rw [signature, hasSigned]
  cases search.material.signature? search.scheme search.leafHash key <;> simp

theorem exists_secret_iff {digest : Digest} :
    (∃ items, search.secret digest = .stack items) ↔ (search.material.secret digest).isSome := by
  rw [secret]
  cases search.material.secret digest <;> simp

theorem exists_lock_iff {met : Bool} :
    (∃ items, (search.lock met).sat.witness = .stack items) ↔ met = true := by
  cases met <;> cases safe : search.rootIsSafe <;> simp [lock, safe, Witness.empty]

theorem exists_multi_iff {k : Nat} {keys : List κ} :
    (∃ items, (search.multi k keys).sat.witness = .stack items) ↔ k ≤ keys.countP search.hasSigned := by
  have signed : (keys.filterMap (search.material.signature? search.scheme search.leafHash)).length =
      keys.countP search.hasSigned := List.length_filterMap_eq_countP
  simp only [multi, signed]
  split <;> simp [Satisfaction.impossible] <;> omega

theorem exists_multiA_iff {k : Nat} {keys : List κ} :
    (∃ items, (search.multiA k keys).sat.witness = .stack items) ↔ k ≤ keys.countP search.hasSigned := by
  have signed : (keys.reverse.map (search.material.signature? search.scheme search.leafHash)).countP
      Option.isSome = keys.countP search.hasSigned := by
    rw [List.countP_map, List.countP_reverse]
    rfl
  rw [← signed]
  simp only [multiA]
  constructor
  · rintro ⟨items, found⟩
    split at found
    next filled =>
      obtain ⟨places, each, count, -⟩ := fillSlots?_eq_some filled
      rw [← count]
      refine countP_le_of_forall₂ each fun slot _ place _ fills marked => ?_
      obtain ⟨-, rfl⟩ | rfl := fills
      · rfl
      · cases marked
    next => cases found
  · intro enough
    obtain ⟨items, filled⟩ := exists_fillSlots? enough
    exact ⟨items, by rw [filled]⟩

end Search

/-! ## Nothing is lost -/

/-- For every answer that one relation has a stack for, the other has one too. -/
def AnswerRel.Covers (more less : AnswerRel) : Prop :=
  ∀ answer, (∃ taken, less answer taken) → ∃ taken, more answer taken

namespace AnswerRel.Covers

variable {x y z x' y' z' : AnswerRel}

theorem both (first : x'.Covers x) (second : y'.Covers y) {answer answer' : Bool}
    (before : ∃ taken, Both x y answer answer' taken) : ∃ taken, Both x' y' answer answer' taken := by
  obtain ⟨_, upper, lower, rfl, left, right⟩ := before
  obtain ⟨upper', left'⟩ := first answer ⟨upper, left⟩
  obtain ⟨lower', right'⟩ := second answer' ⟨lower, right⟩
  exact ⟨upper' ++ lower', upper', lower', rfl, left', right'⟩

theorem wrap (below : x'.Covers x) (w : Wrapper) :
    Covers (Candidates.wrap w x') (Candidates.wrap w x) := by
  rintro answer ⟨taken, before⟩
  cases w with
  | alt | swap | check | zeroNotEqual => exact below answer ⟨taken, before⟩
  | verify =>
    obtain ⟨taken', after⟩ := below true ⟨taken, before.2⟩
    exact ⟨taken', before.1, after⟩
  | dupIf =>
    cases answer with
    | true =>
      obtain ⟨rest, -, before⟩ := before
      obtain ⟨rest', after⟩ := below true ⟨rest, before⟩
      exact ⟨[1] :: rest', rest', rfl, after⟩
    | false => exact ⟨taken, before⟩
  | nonzero =>
    cases answer with
    | true => exact below true ⟨taken, before⟩
    | false => exact ⟨taken, before⟩

theorem pair (first : x'.Covers x) (second : y'.Covers y) (op : Connective) :
    Covers (Candidates.pair op x' y') (Candidates.pair op x y) := by
  rintro answer ⟨taken, before⟩
  cases op with
  | andV | andB => exact first.both second ⟨taken, before⟩
  | orB =>
    cases answer with
    | true =>
      cases before with
      | inl before => exact (first.both second ⟨taken, before⟩).imp fun _ => .inl
      | inr before => exact (first.both second ⟨taken, before⟩).imp fun _ => .inr
    | false => exact first.both second ⟨taken, before⟩
  | orD =>
    cases before with
    | inl before => exact (first true ⟨taken, before.2⟩).imp fun _ after => .inl ⟨before.1, after⟩
    | inr before => exact (first.both second ⟨taken, before⟩).imp fun _ => .inr
  | orC =>
    obtain ⟨rfl, before | before⟩ := before
    · exact (first true ⟨taken, before⟩).imp fun _ after => ⟨rfl, .inl after⟩
    · exact (first.both second ⟨taken, before⟩).imp fun _ after => ⟨rfl, .inr after⟩
  | orI =>
    obtain ⟨rest, ⟨-, before⟩ | ⟨-, before⟩⟩ := before
    · obtain ⟨rest', after⟩ := first answer ⟨rest, before⟩
      exact ⟨[1] :: rest', rest', .inl ⟨rfl, after⟩⟩
    · obtain ⟨rest', after⟩ := second answer ⟨rest, before⟩
      exact ⟨[] :: rest', rest', .inr ⟨rfl, after⟩⟩

theorem andOr (first : x'.Covers x) (second : y'.Covers y) (third : z'.Covers z) :
    Covers (Candidates.andOr x' y' z') (Candidates.andOr x y z) := by
  rintro answer ⟨taken, ⟨yes, before⟩ | before⟩
  · exact (first.both second ⟨taken, before⟩).imp fun _ after => .inl ⟨yes, after⟩
  · exact (first.both third ⟨taken, before⟩).imp fun _ => .inr

/-- The children of a threshold give the same answers as before. -/
theorem parts {items items' : List AnswerRel} (each : List.Forall₂ Covers items' items)
    {parts : List (Bool × List Bytes)}
    (before : List.Forall₂ (fun x part => x part.1 part.2) items parts) :
    ∃ parts' : List (Bool × List Bytes),
      List.Forall₂ (fun x part => x part.1 part.2) items' parts' ∧
        parts'.map Prod.fst = parts.map Prod.fst := by
  induction each generalizing parts with
  | nil =>
    cases before
    exact ⟨[], .nil, rfl⟩
  | cons head _ ih =>
    cases before with
    | @cons _ part _ _ first rest =>
      obtain ⟨taken, found⟩ := head part.1 ⟨part.2, first⟩
      obtain ⟨others, below, same⟩ := ih rest
      exact ⟨(part.1, taken) :: others, .cons found below, congrArg (part.1 :: ·) same⟩

theorem threshold {items items' : List AnswerRel} (each : List.Forall₂ Covers items' items) (k : Nat) :
    Covers (Candidates.threshold k items') (Candidates.threshold k items) := by
  rintro answer ⟨taken, found, before, -, count⟩
  obtain ⟨found', after, same⟩ := parts each before
  have marks (parts : List (Bool × List Bytes)) :
      parts.countP Prod.fst = (parts.map Prod.fst).countP id := by
    rw [List.countP_map]
    rfl
  refine ⟨found'.flatMap Prod.snd, found', after, rfl, ?_⟩
  rw [marks, same, ← marks, count]

/-- What holds of leaves holds of conditions. -/
theorem candidates {κ α : Type} {found found' : Leaf κ Digest → Outcomes}
    (leaves : ∀ l, (Candidates.ofLeaf (found' l)).Covers (Candidates.ofLeaf (found l)))
    (t : Condition κ Digest α) : (t.Candidates found').Covers (t.Candidates found) := by
  induction t using Condition.induct with
  | leaf note l =>
    rw [Condition.candidates_leaf, Condition.candidates_leaf]
    exact leaves l
  | wrap note w x ih =>
    rw [Condition.candidates_wrap, Condition.candidates_wrap]
    exact ih.wrap w
  | pair note op x y ihX ihY =>
    rw [Condition.candidates_pair, Condition.candidates_pair]
    exact ihX.pair ihY op
  | andOr note x y z ihX ihY ihZ =>
    rw [Condition.candidates_andOr, Condition.candidates_andOr]
    exact ihX.andOr ihY ihZ
  | thresh note k items ih =>
    rw [Condition.candidates_thresh, Condition.candidates_thresh]
    refine threshold ?_ k
    rw [List.forall₂_map_left_iff, List.forall₂_map_right_iff, List.forall₂_same]
    exact ih

end AnswerRel.Covers

namespace Search

variable {κ : Type} [PublicKey κ] {search : Search κ} {more : Material κ}

/-- A leaf that could be satisfied still can be. -/
theorem exists_sat_ofLeaf (covers : more.Covers search.material) {l : Leaf κ Digest}
    (before : ∃ items, (search.ofLeaf l).sat.witness = .stack items) :
    ∃ items, ({ search with material := more }.ofLeaf l).sat.witness = .stack items := by
  have signed {key : κ} (before : search.hasSigned key = true) :
      ({ search with material := more } : Search κ).hasSigned key = true := covers.signature? before
  have count (keys : List κ) : keys.countP search.hasSigned ≤
      keys.countP ({ search with material := more } : Search κ).hasSigned :=
    List.countP_mono_left fun _ _ => signed
  cases l with
  | one | zero => exact before
  | key k => exact (exists_signature_iff _).mpr (signed ((exists_signature_iff _).mp before))
  | keyHash k =>
    obtain ⟨items, found⟩ := before
    obtain ⟨lower, upper, signature, -, -⟩ := Witness.below_eq_stack.mp found
    obtain ⟨items, signature⟩ :=
      (exists_signature_iff _).mpr (signed ((exists_signature_iff search).mp ⟨lower, signature⟩))
    exact ⟨items ++ [PublicKey.pushed search.scheme k], congrArg (Witness.below · _) signature⟩
  | after lock =>
    exact (exists_lock_iff _).mpr (covers.meetsAfter ((exists_lock_iff search).mp before))
  | older lock =>
    exact (exists_lock_iff _).mpr (covers.meetsOlder ((exists_lock_iff search).mp before))
  | digest d => exact (exists_secret_iff _).mpr (covers.secret ((exists_secret_iff search).mp before))
  | multi ks =>
    exact (exists_multi_iff _).mpr (((exists_multi_iff search).mp before).trans (count ks.items))
  | multiA ks =>
    exact (exists_multiA_iff _).mpr (((exists_multiA_iff search).mp before).trans (count ks.items))

theorem dissat_ofLeaf (l : Leaf κ Digest) :
    ({ search with material := more }.ofLeaf l).dissat = (search.ofLeaf l).dissat := by
  cases l <;> rfl

/-- With more material every leaf that could be satisfied still can be, and what dissatisfies it does
not depend on material. -/
theorem covers_ofLeaf (covers : more.Covers search.material) (l : Leaf κ Digest) :
    (Candidates.ofLeaf ({ search with material := more }.ofLeaf l)).Covers
      (Candidates.ofLeaf (search.ofLeaf l)) := by
  rintro answer ⟨taken, found⟩
  cases answer with
  | true =>
    obtain ⟨items, found⟩ := exists_sat_ofLeaf covers ⟨_, found⟩
    exact ⟨items.reverse, found.trans (congrArg Witness.stack items.reverse_reverse.symm)⟩
  | false => exact ⟨taken, (congrArg Satisfaction.witness (dissat_ofLeaf l)).trans found⟩

end Search

namespace Typed

variable {κ : Type} [PublicKey κ] {context : Context} {t : Typed κ Digest} {more less : Material κ}
  {witness : List Bytes}

/-- Where the liberal search finds a witness, it finds one with any material that answers all the same
and more, though it may be another one. -/
theorem Validated.satisfy_malleable_mono (valid : Validated context t) (covers : more.Covers less)
    (found : t.satisfy context .malleable less = .ok witness) :
    ∃ witness', t.satisfy context .malleable more = .ok witness' := by
  have before := ((t.search context .malleable less).gives_candidates t).sat _ (satisfy_eq_ok.mp found)
  have held : more.Covers (t.search context .malleable less).material := covers
  obtain ⟨taken, after⟩ :=
    AnswerRel.Covers.candidates (Search.covers_ofLeaf held) t true ⟨_, before⟩
  have under := (t.search context .malleable more).undercuts_candidates rfl valid
  obtain ⟨witness', found', -⟩ := under.sat.exists_stack after
  exact ⟨witness', satisfy_eq_ok.mpr found'⟩

/-- A signature that comes in addition takes the place of another one with a secret. -/
theorem Validated.satisfy_malleable_mono_keyOrSecret :
    ∃ (t : Typed PointKey Digest) (less extra : Material PointKey) (witness : List Bytes),
      Validated .segwit t ∧ (extra.orElse less).Covers less ∧
        t.satisfy .segwit .malleable less = .ok witness ∧
        (∃ witness', t.satisfy .segwit .malleable (extra.orElse less) = .ok witness') ∧
        t.satisfy .segwit .malleable (extra.orElse less) ≠ .ok witness := by
  let first : PointKey := ⟨false, Vector.replicate 32 1⟩
  let second : PointKey := ⟨false, Vector.replicate 32 2⟩
  let digest : Digest := ⟨.sha256, List.replicate 32 3, rfl⟩
  let t : Typed PointKey Digest := keyOrSecret .segwit first second digest
  let less : Material PointKey := { Material.ofEcdsa [(second, [7])] with
    secret := fun _ => some (Vector.replicate 32 5) }
  let extra : Material PointKey := Material.ofEcdsa [(first, [8])]
  have valid : Validated .segwit t := validated_keyOrSecret rfl rfl
  have covers := Material.Covers.orElse extra less
  have found : t.satisfy .segwit .malleable less = .ok [List.replicate 32 5, [7], []] := by
    decide +kernel
  exact ⟨t, less, extra, _, valid, covers, found, valid.satisfy_malleable_mono covers found,
    by decide +kernel⟩

end Typed

end LockScript
