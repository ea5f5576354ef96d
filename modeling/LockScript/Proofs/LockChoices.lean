import LockScript.Proofs.Satisfiability

/-! # Choices and the locks that they need

A condition is satisfied by a choice: of a branch at each disjunction, and of as many children as a
threshold counts. A choice needs the locks of all that it runs. There are exponentially many choices
but only sixteen combinations of kinds, so a budget keeps the set of those that some choice needs, and
drops at once those that no transaction meets.

What is needed together is needed in the whole, so a combination that is dropped could never become one
that can be met. That makes the sets exact: they hold what some choice needs and what is not mixed.
-/

namespace LockScript

namespace LockKinds

/-- The kinds of any of the combinations. -/
def unionAll (items : List LockKinds) : LockKinds :=
  items.foldr union free

@[simp] theorem union_free (a : LockKinds) : a.union free = a := by
  simp [union, free]

@[simp] theorem free_union (a : LockKinds) : free.union a = a := by
  simp [union, free]

theorem isMixed_union (a b : LockKinds) :
    (a.union b).isMixed = (a.isMixed || b.isMixed || a.conflicts b) := by
  simp only [isMixed, union, conflicts]
  grind

/-- Kinds that go together without a mix do so in every part. -/
theorem unmixed_of_union {a b : LockKinds} (unmixed : (a.union b).isMixed = false) :
    a.isMixed = false ∧ b.isMixed = false := by
  rw [isMixed_union, Bool.or_eq_false_iff, Bool.or_eq_false_iff] at unmixed
  exact unmixed.1

theorem unmixed_ofAbsolute (lock : AbsoluteLock) : (ofAbsolute lock).isMixed = false := by
  simp [isMixed, ofAbsolute, free, AbsoluteLock.isTime]

theorem unmixed_ofRelative (lock : RelativeLock) : (ofRelative lock).isMixed = false := by
  simp [isMixed, ofRelative, free, RelativeLock.isHeight]

/-- What is needed by two parts that both run. -/
def Together (P Q : LockKinds → Prop) (kinds : LockKinds) : Prop :=
  ∃ first second, kinds = first.union second ∧ P first ∧ Q second

end LockKinds

/-- Which kinds of lock the choices for each answer need. -/
abbrev LockRel := Bool → LockKinds → Prop

/-- The locks of fragments that all run, as many of them as told for a yes and the others for a no. -/
def LockRel.Counted (items : List LockRel) (count : Nat) (kinds : LockKinds) : Prop :=
  ∃ parts : List (Bool × LockKinds), List.Forall₂ (fun x part => x part.1 part.2) items parts ∧
    kinds = .unionAll (parts.map Prod.snd) ∧ parts.countP Prod.fst = count

namespace LockRel

variable {x : LockRel} {items : List LockRel} {count : Nat} {kinds : LockKinds}

theorem counted_nil : Counted [] count kinds ↔ count = 0 ∧ kinds = .free := by
  simp [Counted, LockKinds.unionAll, and_comm, eq_comm]

/-- The first fragment is chosen for an answer of its own, and counts if that is a yes. -/
theorem counted_cons : Counted (x :: items) count kinds ↔ ∃ (answer : Bool) (after : Nat),
    count = answer.toNat + after ∧ LockKinds.Together (x answer) (Counted items after) kinds := by
  constructor
  · rintro ⟨parts, chosen, rfl, rfl⟩
    obtain ⟨⟨answer, first⟩, parts, own, others, rfl⟩ := List.forall₂_cons_left_iff.mp chosen
    refine ⟨answer, _, ?_, first, _, rfl, own, parts, others, rfl, rfl⟩
    cases answer <;> simp [Nat.add_comm]
  · rintro ⟨answer, _, rfl, first, _, rfl, own, parts, others, rfl, rfl⟩
    refine ⟨(answer, first) :: parts, .cons own others, rfl, ?_⟩
    cases answer <;> simp [Nat.add_comm]

theorem counted_cons_zero : Counted (x :: items) 0 kinds ↔
    LockKinds.Together (x false) (Counted items 0) kinds := by
  simp [counted_cons, Nat.add_comm 1]

theorem counted_cons_succ : Counted (x :: items) (count + 1) kinds ↔
    LockKinds.Together (x false) (Counted items (count + 1)) kinds ∨
      LockKinds.Together (x true) (Counted items count) kinds := by
  simp [counted_cons, Nat.add_comm 1]

end LockRel

/-! ## Choices -/

namespace Requirements

open LockKinds (Together)

variable {κ δ : Type}

/-- A lock cannot be answered with no; other leaves need no lock. -/
def ofLeaf (leaf : Leaf κ δ) (answer : Bool) (kinds : LockKinds) : Prop :=
  match leaf with
  | .one => answer = true ∧ kinds = .free
  | .zero => answer = false ∧ kinds = .free
  | .after lock => answer = true ∧ kinds = .ofAbsolute lock
  | .older lock => answer = true ∧ kinds = .ofRelative lock
  | .key _ | .keyHash _ | .digest _ | .multi _ | .multiA _ => kinds = .free

/-- The wrappers `d:` and `j:` answer no without running their child, and `v:` never does. -/
def wrap (wrapper : Wrapper) (x : LockRel) (answer : Bool) (kinds : LockKinds) : Prop :=
  match wrapper with
  | .alt | .swap | .check | .zeroNotEqual => x answer kinds
  | .dupIf | .nonzero => if answer then x true kinds else kinds = .free
  | .verify => answer = true ∧ x true kinds

/-- Both children run for a conjunction, and a choice of branches for a disjunction. -/
def pair (op : Connective) (x y : LockRel) (answer : Bool) (kinds : LockKinds) : Prop :=
  match op with
  | .andV => answer = true ∧ Together (x true) (y true) kinds
  | .andB => Together (x answer) (y answer) kinds
  | .orB =>
    if answer then Together (x true) (y false) kinds ∨ Together (x false) (y true) kinds
    else Together (x false) (y false) kinds
  | .orD => (answer = true ∧ x true kinds) ∨ Together (x false) (y answer) kinds
  | .orC => answer = true ∧ (x true kinds ∨ Together (x false) (y true) kinds)
  | .orI => x answer kinds ∨ y answer kinds

/-- The first child decides which of the others runs with it. -/
def andOr (x y z : LockRel) (answer : Bool) (kinds : LockKinds) : Prop :=
  (answer = true ∧ Together (x true) (y true) kinds) ∨ Together (x false) (z answer) kinds

/-- All children run, exactly `k` of them for a yes, or none. -/
def threshold (k : Nat) (items : List LockRel) (answer : Bool) : LockKinds → Prop :=
  LockRel.Counted items (if answer then k else 0)

/-- The locks that the choices at a fragment need, over those for its children. -/
def ofFragment : Fragment κ δ LockRel → LockRel
  | .leaf l => ofLeaf l
  | .wrap w x => wrap w x
  | .pair op x y => pair op x y
  | .andOr x y z => andOr x y z
  | .thresh k items => threshold k items

end Requirements

namespace Condition

variable {κ δ α : Type}

/-- Some choice of branches and children for an answer needs exactly these kinds of lock. -/
def Requires (t : Condition κ δ α) : LockRel :=
  Traversal.bottomUp (fun x items => Requirements.ofFragment (x.fragment.withChildren items)) t

theorem requires_eq (t : Condition κ δ α) :
    t.Requires = Requirements.ofFragment (t.fragment.map Requires) :=
  bottomUp_fragment Requirements.ofFragment t

@[simp] theorem requires_leaf (note : α) (l : Leaf κ δ) :
    (leaf note l).Requires = Requirements.ofLeaf l :=
  requires_eq _

@[simp] theorem requires_wrap (note : α) (w : Wrapper) (x : Condition κ δ α) :
    (wrap note w x).Requires = Requirements.wrap w x.Requires :=
  requires_eq _

@[simp] theorem requires_pair (note : α) (op : Connective) (x y : Condition κ δ α) :
    (pair note op x y).Requires = Requirements.pair op x.Requires y.Requires :=
  requires_eq _

@[simp] theorem requires_andOr (note : α) (x y z : Condition κ δ α) :
    (andOr note x y z).Requires = Requirements.andOr x.Requires y.Requires z.Requires :=
  requires_eq _

@[simp] theorem requires_thresh (note : α) (k : Nat) (items : List (Condition κ δ α)) :
    (thresh note k items).Requires = Requirements.threshold k (items.map Requires) :=
  requires_eq _

end Condition

/-! ## Sets that represent choices -/

namespace LockSet

variable {a b s : LockSet} {P Q : LockKinds → Prop} {kinds : LockKinds}

/-- The set holds the combinations with a property, but for those that are mixed. -/
def Represents (set : LockSet) (P : LockKinds → Prop) : Prop :=
  ∀ kinds, set.contains kinds = true ↔ P kinds ∧ kinds.isMixed = false

theorem Represents.congr (represents : s.Represents P) (same : ∀ kinds, P kinds ↔ Q kinds) :
    s.Represents Q :=
  fun kinds => (represents kinds).trans (and_congr_left fun _ => same kinds)

/-- There is only one such set. -/
theorem Represents.unique (first : a.Represents P) (second : b.Represents P) : a = b :=
  eq_of_contains fun kinds => Bool.eq_iff_iff.mpr ((first kinds).trans (second kinds).symm)

theorem represents_empty (none : ∀ kinds, ¬P kinds) : empty.Represents P :=
  fun kinds => by simp [none]

theorem represents_single (unmixed : kinds.isMixed = false) : (single kinds).Represents (· = kinds) := by
  refine fun other => ⟨fun found => ?_, ?_⟩
  · obtain rfl := eq_of_contains_single found
    exact ⟨rfl, unmixed⟩
  · rintro ⟨rfl, _⟩
    exact contains_single other

theorem represents_free : free.Represents (· = .free) := by
  rw [free_eq_single]
  exact represents_single rfl

theorem Represents.union (left : a.Represents P) (right : b.Represents Q) :
    (a.union b).Represents fun kinds => P kinds ∨ Q kinds := by
  intro kinds
  rw [contains_union, Bool.or_eq_true, left kinds, right kinds, or_and_right]

/-- A join loses no combination that can be met, since the parts of such a one can be met too. -/
theorem Represents.join (left : a.Represents P) (right : b.Represents Q) :
    (a.join b).Represents (LockKinds.Together P Q) := by
  refine fun kinds => ⟨fun found => ?_, ?_⟩
  · obtain ⟨unmixed, first, second, foundA, foundB, rfl⟩ := exists_of_contains_join found
    exact ⟨⟨first, second, rfl, ((left first).mp foundA).1, ((right second).mp foundB).1⟩, unmixed⟩
  · rintro ⟨⟨first, second, rfl, holdsA, holdsB⟩, unmixed⟩
    obtain ⟨unmixedA, unmixedB⟩ := LockKinds.unmixed_of_union unmixed
    exact contains_join ((left first).mpr ⟨holdsA, unmixedA⟩) ((right second).mpr ⟨holdsB, unmixedB⟩) unmixed

end LockSet

namespace LockPaths

open LockKinds (Together)

variable {x y z : LockPaths} {rel relX relY relZ : LockRel} {items : List LockPaths} {rels : List LockRel}
  {sets : List LockSet} {start : Nat → LockKinds → Prop}

/-- Each of the two sets represents the choices for its answer. -/
def Represents (paths : LockPaths) (rel : LockRel) : Prop :=
  ∀ answer, (paths.pick answer).Represents (rel answer)

theorem Represents.both (first : x.Represents relX) (second : y.Represents relY) (answerX answerY : Bool) :
    ((x.pick answerX).join (y.pick answerY)).Represents (Together (relX answerX) (relY answerY)) :=
  (first answerX).join (second answerY)

/-- With one child more, each count is reached in two ways. -/
theorem represents_countStep (before : ∀ count, (sets.getD count .empty).Represents (start count))
    (own : x.Represents rel) (count : Nat) : ((countStep sets x).getD count .empty).Represents fun kinds =>
      ∃ (answer : Bool) (earlier : Nat), count = earlier + answer.toNat ∧
        Together (start earlier) (rel answer) kinds := by
  have without := (before count).join (own false)
  rw [getD_countStep]
  cases count with
  | zero =>
    rw [LockSet.union_empty]
    refine without.congr fun kinds => ⟨fun found => ⟨false, 0, rfl, found⟩, ?_⟩
    rintro ⟨answer, earlier, same, found⟩
    obtain ⟨rfl, none⟩ := Nat.add_eq_zero_iff.mp same.symm
    rwa [Bool.toNat_eq_zero.mp none] at found
  | succ earlier =>
    refine (without.union ((before earlier).join (own true))).congr fun kinds => ⟨?_, ?_⟩
    · exact fun found => found.elim (⟨false, earlier + 1, rfl, ·⟩) (⟨true, earlier, rfl, ·⟩)
    · rintro ⟨_ | _, _, same, found⟩
      · obtain rfl : earlier + 1 = _ := same
        exact .inl found
      · obtain rfl : earlier = _ := Nat.succ.inj same
        exact .inr found

/-- By the number of satisfied children, the sets represent all choices of so many of them. -/
theorem represents_byCount (each : List.Forall₂ Represents items rels) (count : Nat) :
    ((byCount items).getD count .empty).Represents (LockRel.Counted rels count) := by
  -- The fold is told for any sets to start with, each of which is extended by a choice for the rest.
  have fold (sets : List LockSet) (start : Nat → LockKinds → Prop)
      (before : ∀ count, (sets.getD count .empty).Represents (start count)) (count : Nat) :
      ((items.foldl countStep sets).getD count .empty).Represents fun kinds =>
        ∃ earlier after, count = earlier + after ∧
          Together (start earlier) (LockRel.Counted rels after) kinds := by
    induction each generalizing sets start with
    | nil =>
      refine (before count).congr fun kinds => ⟨fun holds => ?_, ?_⟩
      · exact ⟨count, 0, rfl, kinds, .free, kinds.union_free.symm, holds, LockRel.counted_nil.mpr ⟨rfl, rfl⟩⟩
      · rintro ⟨earlier, after, rfl, first, rest, rfl, holds, counted⟩
        obtain ⟨rfl, rfl⟩ := LockRel.counted_nil.mp counted
        rwa [LockKinds.union_free]
    | cons own _ ih =>
      refine (ih _ _ (represents_countStep before own)).congr fun kinds => ⟨?_, ?_⟩
      · rintro ⟨_, after, rfl, _, rest, rfl, ⟨answer, earlier, rfl, first, second, rfl, holds, chosen⟩, counted⟩
        refine ⟨earlier, answer.toNat + after, by omega, first, second.union rest, LockKinds.union_assoc ..,
          holds, LockRel.counted_cons.mpr ⟨answer, after, rfl, second, rest, rfl, chosen, counted⟩⟩
      · rintro ⟨earlier, _, rfl, first, _, rfl, holds, counted⟩
        obtain ⟨answer, after, rfl, second, rest, rfl, chosen, counted⟩ := LockRel.counted_cons.mp counted
        exact ⟨earlier + answer.toNat, after, by omega, first.union second, rest, (LockKinds.union_assoc ..).symm,
          ⟨answer, earlier, rfl, first, second, rfl, holds, chosen⟩, counted⟩
  have none (count : Nat) : (([.free] : List LockSet).getD count .empty).Represents fun kinds =>
      count = 0 ∧ kinds = .free := by
    cases count with
    | zero => exact LockSet.represents_free.congr (by simp)
    | succ count => exact LockSet.represents_empty (by simp)
  refine (fold [.free] _ none count).congr fun kinds => ⟨?_, fun counted => ?_⟩
  · rintro ⟨_, after, rfl, _, rest, rfl, ⟨rfl, rfl⟩, counted⟩
    rwa [Nat.zero_add, LockKinds.free_union]
  · exact ⟨0, count, (Nat.zero_add count).symm, .free, kinds, kinds.free_union.symm, ⟨rfl, rfl⟩, counted⟩

theorem represents_threshold (k : Nat) (each : List.Forall₂ Represents items rels) :
    (threshold k items).Represents (Requirements.threshold k rels) := by
  intro answer
  cases answer <;> exact represents_byCount each _

variable {ν : Type} [Quantity ν] {x y z : Budget ν}

theorem represents_ofLeaf {κ δ : Type} [KeyLike κ] [DigestLike δ] (context : Context) (l : Leaf κ δ) :
    (Budget.ofLeaf context l : Budget ν).lockPaths.Represents (Requirements.ofLeaf l) := by
  have lock {kinds : LockKinds} (unmixed : kinds.isMixed = false) :
      (LockPaths.lock kinds).Represents fun answer other => answer = true ∧ other = kinds := by
    rintro (_ | _)
    · exact LockSet.represents_empty (by simp)
    · exact (LockSet.represents_single unmixed).congr (by simp)
  intro answer
  cases l with
  | one =>
    cases answer with
    | false => exact LockSet.represents_empty (by simp [Requirements.ofLeaf])
    | true => exact LockSet.represents_free.congr (by simp [Requirements.ofLeaf])
  | zero =>
    cases answer with
    | false => exact LockSet.represents_free.congr (by simp [Requirements.ofLeaf])
    | true => exact LockSet.represents_empty (by simp [Requirements.ofLeaf])
  | after l => exact lock (LockKinds.unmixed_ofAbsolute l) answer
  | older l => exact lock (LockKinds.unmixed_ofRelative l) answer
  | key k | keyHash k | digest d | multi ks | multiA ks =>
    cases answer <;> exact LockSet.represents_free

theorem Represents.wrap (represents : x.lockPaths.Represents relX) (w : Wrapper) :
    (Budget.wrap w x).lockPaths.Represents (Requirements.wrap w relX) := by
  intro answer
  cases w with
  | alt | swap | check | zeroNotEqual => exact represents answer
  | dupIf | nonzero =>
    cases answer with
    | false => exact LockSet.represents_free
    | true => exact represents true
  | verify =>
    cases answer with
    | false => exact LockSet.represents_empty (by simp [Requirements.wrap])
    | true => exact (represents true).congr (by simp [Requirements.wrap])

theorem Represents.pair (first : x.lockPaths.Represents relX) (second : y.lockPaths.Represents relY)
    (op : Connective) : (Budget.pair op x y).lockPaths.Represents (Requirements.pair op relX relY) := by
  have both := first.both second
  intro answer
  cases op with
  | andV =>
    cases answer with
    | false => exact LockSet.represents_empty (by simp [Requirements.pair])
    | true => exact (both true true).congr (by simp [Requirements.pair])
  | andB =>
    cases answer with
    | false => exact both false false
    | true => exact both true true
  | orB =>
    cases answer with
    | false => exact both false false
    | true => exact (both true false).union (both false true)
  | orD =>
    cases answer with
    | false => exact (both false false).congr (by simp [Requirements.pair])
    | true => exact ((first true).union (both false true)).congr (by simp [Requirements.pair])
  | orC =>
    cases answer with
    | false => exact LockSet.represents_empty (by simp [Requirements.pair])
    | true => exact ((first true).union (both false true)).congr (by simp [Requirements.pair])
  | orI =>
    cases answer with
    | false => exact (first false).union (second false)
    | true => exact (first true).union (second true)

theorem Represents.andOr (first : x.lockPaths.Represents relX) (second : y.lockPaths.Represents relY)
    (third : z.lockPaths.Represents relZ) :
    (Budget.andOr x y z).lockPaths.Represents (Requirements.andOr relX relY relZ) := by
  intro answer
  cases answer with
  | false => exact (first.both third false false).congr (by simp [Requirements.andOr])
  | true =>
    exact ((first.both second true true).union (first.both third false true)).congr
      (by simp [Requirements.andOr])

end LockPaths

namespace Typed

variable {κ δ : Type} [KeyLike κ] [DigestLike δ] {context : Context} {t : Typed κ δ}

@[simp] theorem requires_ofFragment (fragment : Fragment κ δ (Typed κ δ)) :
    (ofFragment context fragment).Requires = Requirements.ofFragment (fragment.map Condition.Requires) := by
  rw [Condition.requires_eq, ofFragment, Condition.fragment_node]

namespace Validated

/-- The sets in the budget of a condition represent its choices. -/
theorem lockPaths_represents (valid : Validated context t) : t.budget.lockPaths.Represents t.Requires := by
  induction t using Typed.induct with
  | leaf note l =>
    change note.budget.lockPaths.Represents _
    rw [valid.lockPaths_leaf, Condition.requires_leaf]
    exact LockPaths.represents_ofLeaf context l
  | wrap note w x ih =>
    change note.budget.lockPaths.Represents _
    rw [valid.lockPaths_wrap, Condition.requires_wrap]
    exact (ih valid.wrap.1).wrap w
  | pair note op x y ihX ihY =>
    change note.budget.lockPaths.Represents _
    rw [valid.lockPaths_pair, Condition.requires_pair]
    exact (ihX valid.pair.1).pair (ihY valid.pair.2.1) op
  | andOr note x y z ihX ihY ihZ =>
    obtain ⟨validX, validY, validZ, _⟩ := valid.andOr
    change note.budget.lockPaths.Represents _
    rw [valid.lockPaths_andOr, Condition.requires_andOr]
    exact (ihX validX).andOr (ihY validY) (ihZ validZ)
  | thresh note k items ih =>
    change note.budget.lockPaths.Represents _
    rw [valid.lockPaths_thresh, Condition.requires_thresh]
    refine LockPaths.represents_threshold k ?_
    rw [List.forall₂_map_left_iff, List.forall₂_map_right_iff, List.forall₂_same]
    exact fun x member => ih x member (valid.thresh.1 x member)

/-- A combination of locks is in the set for an answer exactly if some choice of branches and children
for this answer needs it, and it is not mixed. -/
theorem contains_lockPaths_iff (valid : Validated context t) (kinds : LockKinds) :
    (t.budget.lockPaths.sat.contains kinds = true ↔ t.Requires true kinds ∧ kinds.isMixed = false) ∧
    (t.budget.lockPaths.dissat.contains kinds = true ↔ t.Requires false kinds ∧ kinds.isMixed = false) :=
  ⟨valid.lockPaths_represents true kinds, valid.lockPaths_represents false kinds⟩

/-- In `or_i(and_v(v:after(7),after(500000007)),after(9))` the first branch needs a height and a time, and
only the second one is left. -/
theorem contains_lockPaths_iff_twoLocks : ∃ t : Typed PointKey Digest, Validated .segwit t ∧
    t.Requires true ⟨false, false, true, true⟩ ∧
    t.budget.lockPaths.sat.contains ⟨false, false, true, true⟩ = false ∧
    t.Requires true ⟨false, false, true, false⟩ ∧
    t.budget.lockPaths.sat.contains ⟨false, false, true, false⟩ = true ∧
    ∀ kinds, t.budget.lockPaths.dissat.contains kinds = false := by
  let height : AbsoluteLock := ⟨7, by decide, by decide⟩
  let time : AbsoluteLock := ⟨500000007, by decide, by decide⟩
  let later : AbsoluteLock := ⟨9, by decide, by decide⟩
  let lock : Typed PointKey Digest := ofFragment .segwit (.leaf (.after later))
  let t : Typed PointKey Digest := ofFragment .segwit (.pair .orI (twoLocks .segwit height time) lock)
  have validLock : Validated .segwit lock := validated_ofFragment rfl nofun
  have valid : Validated .segwit t := validated_ofFragment rfl
    (List.forall_mem_cons.mpr ⟨validated_twoLocks height time, List.forall_mem_singleton.mpr validLock⟩)
  have choices : t.Requires = Requirements.pair .orI (Requirements.pair .andV (Requirements.wrap .verify
      (Requirements.ofLeaf (.after height : Leaf PointKey Digest)))
      (Requirements.ofLeaf (.after time : Leaf PointKey Digest)))
      (Requirements.ofLeaf (.after later : Leaf PointKey Digest)) := by
    simp only [t, lock, twoLocks, requires_ofFragment, Fragment.map, Requirements.ofFragment]
  have both : t.Requires true ⟨false, false, true, true⟩ := by
    rw [choices]
    exact .inl ⟨rfl, .ofAbsolute height, .ofAbsolute time, rfl, ⟨rfl, rfl, rfl⟩, rfl, rfl⟩
  have sets (kinds : LockKinds) := valid.contains_lockPaths_iff kinds
  have kept : t.budget.lockPaths.sat.contains ⟨false, false, true, false⟩ = true := by decide +kernel
  refine ⟨t, valid, both, ?_, ((sets _).1.mp kept).1, kept, fun kinds => ?_⟩
  · exact Bool.eq_false_iff.mpr fun found => Bool.noConfusion ((sets _).1.mp found).2
  · refine Bool.eq_false_iff.mpr fun found => ?_
    obtain ⟨chosen, _⟩ := (sets kinds).2.mp found
    rw [choices] at chosen
    obtain ⟨none, _⟩ | ⟨none, _⟩ := chosen <;> cases none

end Validated

end Typed

end LockScript
