import LockScript.Proofs.LockChoices

/-! # Mixed locks

Besides its exact sets a budget keeps five flags: which kinds of lock there are in the tree, and whether
two that conflict may be needed together. The flags are merged in a fold over the children that knows
nothing of choices. They tell as much as the sets all the same. No choice needs more than the flags say,
so none is mixed unless the flag is up. And there is a choice behind each flag, as long as no fragment
`0` stands on a branch: every child can then be satisfied, and those that are left out need no lock.
-/

namespace LockScript

/-- One of the four kinds of lock. -/
inductive LockKind where
  | olderHeight
  | olderTime
  | afterHeight
  | afterTime

/-- The kind that no transaction meets together with this one. -/
def LockKind.opposite : LockKind → LockKind
  | olderHeight => olderTime
  | olderTime => olderHeight
  | afterHeight => afterTime
  | afterTime => afterHeight

namespace LockKinds

variable {a b : LockKinds} {kind : LockKind} {P Q : LockKinds → Prop} {kinds : LockKinds}

/-- Whether a kind is among those of a combination. -/
def has (kinds : LockKinds) : LockKind → Bool
  | .olderHeight => kinds.olderHeight
  | .olderTime => kinds.olderTime
  | .afterHeight => kinds.afterHeight
  | .afterTime => kinds.afterTime

@[simp] theorem has_free : free.has kind = false := by
  cases kind <;> rfl

@[simp] theorem has_union : (a.union b).has kind = (a.has kind || b.has kind) := by
  cases kind <;> rfl

theorem within_iff_has : a.Within b ↔ ∀ kind, a.has kind = true → b.has kind = true := by
  refine within_iff.trans ⟨fun ⟨first, second, third, fourth⟩ kind => ?_, fun all => ?_⟩
  · cases kind
    exacts [first, second, third, fourth]
  · exact ⟨all .olderHeight, all .olderTime, all .afterHeight, all .afterTime⟩

theorem Within.trans {c : LockKinds} (first : a.Within b) (second : b.Within c) : a.Within c :=
  within_iff_has.mpr fun kind found => within_iff_has.mp second kind (within_iff_has.mp first kind found)

theorem within_union_left (a b : LockKinds) : a.Within (a.union b) :=
  within_iff_has.mpr fun kind found => by simp [found]

theorem within_union_right (a b : LockKinds) : b.Within (a.union b) :=
  within_iff_has.mpr fun kind found => by simp [found]

theorem conflicts_iff : a.conflicts b = true ↔ ∃ kind, a.has kind = true ∧ b.has kind.opposite = true := by
  simp only [conflicts, Bool.or_eq_true, Bool.and_eq_true]
  constructor
  · rintro (((found | found) | found) | found)
    exacts [⟨.olderHeight, found⟩, ⟨.olderTime, found⟩, ⟨.afterTime, found⟩, ⟨.afterHeight, found⟩]
  · rintro ⟨kind, found⟩
    cases kind
    exacts [.inl (.inl (.inl found)), .inl (.inl (.inr found)), .inr found, .inl (.inr found)]

theorem isMixed_iff : a.isMixed = true ↔ ∃ kind, a.has kind = true ∧ a.has kind.opposite = true := by
  rw [← conflicts_iff]
  simp only [isMixed, conflicts]
  grind

/-- What is mixed stays so when more is needed. -/
theorem isMixed_mono (within : a.Within b) (mixed : a.isMixed = true) : b.isMixed = true := by
  obtain ⟨kind, found, found'⟩ := isMixed_iff.mp mixed
  exact isMixed_iff.mpr ⟨kind, within_iff_has.mp within _ found, within_iff_has.mp within _ found'⟩

theorem conflicts_mono {a' b' : LockKinds} (left : a.Within a') (right : b.Within b')
    (conflict : a.conflicts b = true) : a'.conflicts b' = true := by
  obtain ⟨kind, found, found'⟩ := conflicts_iff.mp conflict
  exact conflicts_iff.mpr ⟨kind, within_iff_has.mp left _ found, within_iff_has.mp right _ found'⟩

@[simp] theorem conflicts_union_left {c : LockKinds} :
    (a.union b).conflicts c = (a.conflicts c || b.conflicts c) := by
  simp only [conflicts, union]
  grind

@[simp] theorem conflicts_union_right {c : LockKinds} :
    a.conflicts (b.union c) = (a.conflicts b || a.conflicts c) := by
  simp only [conflicts, union]
  grind

@[simp] theorem conflicts_free_left : free.conflicts a = false := by
  simp [conflicts, free]

@[simp] theorem conflicts_free_right : a.conflicts free = false := by
  simp [conflicts, free]

/-- Next to what needs no lock, the other part decides. -/
theorem Together.of_free_right (free : ∀ kinds, Q kinds → kinds = .free) (both : Together P Q kinds) :
    P kinds := by
  obtain ⟨first, second, rfl, holds, none⟩ := both
  rwa [free second none, union_free]

theorem Together.of_free_left (free : ∀ kinds, P kinds → kinds = .free) (both : Together P Q kinds) :
    Q kinds := by
  obtain ⟨first, second, rfl, none, holds⟩ := both
  rwa [free first none, free_union]

theorem together_free_right (none : Q .free) (holds : P kinds) : Together P Q kinds :=
  ⟨kinds, .free, kinds.union_free.symm, holds, none⟩

theorem together_free_left (none : P .free) (holds : Q kinds) : Together P Q kinds :=
  ⟨.free, kinds, kinds.free_union.symm, none, holds⟩

end LockKinds

namespace LockRel

/-- No choice for a no needs any lock. -/
def NeverLocked (rel : LockRel) : Prop :=
  ∀ kinds, rel false kinds → kinds = .free

theorem eq_free_of_counted {items : List LockRel} (each : ∀ rel ∈ items, NeverLocked rel) {kinds : LockKinds}
    (counted : Counted items 0 kinds) : kinds = .free := by
  induction items generalizing kinds with
  | nil => exact (counted_nil.mp counted).2
  | cons rel items ih =>
    obtain ⟨head, rest⟩ := List.forall_mem_cons.mp each
    exact ih rest ((counted_cons_zero.mp counted).of_free_left head)

variable {x : LockRel} {items : List LockRel} {count : Nat} {kinds own : LockKinds}

theorem counted_cons_skip (free : x false .free) (counted : Counted items count kinds) :
    Counted (x :: items) count kinds :=
  counted_cons.mpr ⟨false, count, (Nat.zero_add count).symm, LockKinds.together_free_left free counted⟩

theorem counted_cons_take (chosen : x true own) (counted : Counted items count kinds) :
    Counted (x :: items) (count + 1) (own.union kinds) :=
  counted_cons_succ.mpr (.inr ⟨own, kinds, rfl, chosen, counted⟩)

end LockRel

namespace LockUse

variable {a b use : LockUse} {k : Nat}

/-- The uses of two children of a threshold. -/
def together (k : Nat) (a b : LockUse) : LockUse :=
  ⟨a.kinds.union b.kinds, a.mixed || (k > 1 && a.kinds.conflicts b.kinds) || b.mixed⟩

theorem together_assoc (k : Nat) (a b c : LockUse) :
    together k (together k a b) c = together k a (together k b c) := by
  simp only [together, LockKinds.union_assoc, LockKinds.conflicts_union_left,
    LockKinds.conflicts_union_right, mk.injEq, true_and]
  grind

@[simp] theorem together_free (k : Nat) (a : LockUse) : together k a free = a := by
  simp [together, free]

@[simp] theorem free_together (k : Nat) (a : LockUse) : together k free a = a := by
  simp [together, free]

@[simp] theorem threshold_nil (k : Nat) : threshold k [] = free :=
  rfl

/-- The fold over the children may as well start at the other end. -/
theorem threshold_cons (k : Nat) (x : LockUse) (items : List LockUse) :
    threshold k (x :: items) = together k x (threshold k items) := by
  have fold (a b : LockUse) :
      items.foldl (together k) (together k a b) = together k a (items.foldl (together k) b) := by
    induction items generalizing b with
    | nil => rfl
    | cons y items ih => rw [List.foldl_cons, List.foldl_cons, together_assoc, ih]
  have start : threshold k (x :: items) = items.foldl (together k) (together k free x) := rfl
  rw [start, free_together]
  exact (congrArg (items.foldl _) (together_free k x).symm).trans (fold x free)

theorem and_eq (a b : LockUse) : a.and b = together 2 a b := by
  rw [and, threshold_cons, threshold_cons, threshold_nil, together_free]

theorem or_eq (a b : LockUse) : a.or b = together 1 a b := by
  rw [or, threshold_cons, threshold_cons, threshold_nil, together_free]

/-! ## What the flags exclude -/

variable {P Q R : LockKinds → Prop}

/-- No choice needs more than the flags say. -/
structure Bounds (use : LockUse) (P : LockKinds → Prop) : Prop where
  within : ∀ kinds, P kinds → kinds.Within use.kinds
  unmixed : use.mixed = false → ∀ kinds, P kinds → kinds.isMixed = false

theorem bounds_free (use : LockUse) : use.Bounds (· = .free) := by
  constructor
  · rintro _ rfl
    exact LockKinds.within_free
  · rintro _ _ rfl
    rfl

theorem Bounds.mono (bounds : use.Bounds P) (imp : ∀ kinds, Q kinds → P kinds) : use.Bounds Q :=
  ⟨fun kinds holds => bounds.within kinds (imp kinds holds),
    fun flag kinds holds => bounds.unmixed flag kinds (imp kinds holds)⟩

theorem Bounds.or (left : use.Bounds P) (right : use.Bounds Q) :
    use.Bounds fun kinds => P kinds ∨ Q kinds :=
  ⟨fun kinds => Or.rec (left.within kinds) (right.within kinds),
    fun flag kinds => Or.rec (left.unmixed flag kinds) (right.unmixed flag kinds)⟩

theorem together_unmixed (flag : (together k a b).mixed = false) :
    a.mixed = false ∧ b.mixed = false ∧ (1 < k → a.kinds.conflicts b.kinds = false) := by
  simp only [together, Bool.or_eq_false_iff, Bool.and_eq_false_imp, decide_eq_true_eq] at flag
  exact ⟨flag.1.1, flag.2, flag.1.2⟩

/-- Where only one child is satisfied, the flags of all children together are more than enough. -/
theorem Bounds.left (bounds : a.Bounds P) : (together k a b).Bounds P where
  within kinds holds := (bounds.within kinds holds).trans (LockKinds.within_union_left ..)
  unmixed flag := bounds.unmixed (together_unmixed flag).1

theorem Bounds.right (bounds : b.Bounds Q) : (together k a b).Bounds Q where
  within kinds holds := (bounds.within kinds holds).trans (LockKinds.within_union_right ..)
  unmixed flag := bounds.unmixed (together_unmixed flag).2.1

/-- Two children that are both satisfied mix locks if one of them does, or if they conflict. -/
theorem Bounds.together (many : 1 < k) (first : a.Bounds P) (second : b.Bounds Q) :
    (together k a b).Bounds (LockKinds.Together P Q) := by
  constructor
  · rintro _ ⟨_, _, rfl, holds, holds'⟩
    exact (first.left.within _ holds).union (second.right.within _ holds')
  · rintro flag _ ⟨_, _, rfl, holds, holds'⟩
    obtain ⟨flagA, flagB, apart⟩ := together_unmixed flag
    have unrelated := Bool.eq_false_iff.mpr fun conflict => Bool.eq_false_iff.mp (apart many)
      (LockKinds.conflicts_mono (first.within _ holds) (second.within _ holds') conflict)
    rw [LockKinds.isMixed_union, first.unmixed flagA _ holds, second.unmixed flagB _ holds', unrelated]
    rfl

section Threshold

variable {ι : Type} {use : ι → LockUse} {rel : ι → LockRel} {items : List ι} {count : Nat}

/-- Children that are not satisfied need no lock, so a conflict counts only where two are satisfied. -/
theorem bounds_counted (each : ∀ x ∈ items, (use x).Bounds (rel x true))
    (unlocked : ∀ x ∈ items, LockRel.NeverLocked (rel x)) (few : 1 < k ∨ count ≤ 1) :
    (threshold k (items.map use)).Bounds (LockRel.Counted (items.map rel) count) := by
  induction items generalizing count with
  | nil => exact (bounds_free _).mono fun kinds counted => (LockRel.counted_nil.mp counted).2
  | cons x items ih =>
    obtain ⟨own, each⟩ := List.forall_mem_cons.mp each
    obtain ⟨free, unlocked⟩ := List.forall_mem_cons.mp unlocked
    rw [List.map_cons, List.map_cons, threshold_cons]
    have skipped := (ih each unlocked few).right (a := use x) (k := k)
    cases count with
    | zero => exact skipped.mono fun kinds counted => (LockRel.counted_cons_zero.mp counted).of_free_left free
    | succ count =>
      have taken : (together k (use x) (threshold k (items.map use))).Bounds
          (LockKinds.Together (rel x true) (LockRel.Counted (items.map rel) count)) := by
        rcases few with many | one
        · exact own.together many (ih each unlocked (.inl many))
        · obtain rfl : count = 0 := by omega
          exact own.left.mono fun kinds => LockKinds.Together.of_free_right fun kinds =>
            LockRel.eq_free_of_counted (List.forall_mem_map.mpr unlocked)
      exact (skipped.or taken).mono fun kinds counted =>
        (LockRel.counted_cons_succ.mp counted).imp_left (·.of_free_left free)

end Threshold

/-! ## What is behind the flags -/

/-- There is a choice, and one behind each flag. -/
structure Attained (use : LockUse) (P : LockKinds → Prop) : Prop where
  possible : ∃ kinds, P kinds
  kind : ∀ kind, use.kinds.has kind = true → ∃ kinds, P kinds ∧ kinds.has kind = true
  mixed : use.mixed = true → ∃ kinds, P kinds ∧ kinds.isMixed = true

theorem Attained.mono (attained : use.Attained P) (imp : ∀ kinds, P kinds → Q kinds) : use.Attained Q where
  possible := attained.possible.imp imp
  kind kind used := (attained.kind kind used).imp fun kinds => And.imp_left (imp kinds)
  mixed flag := (attained.mixed flag).imp fun kinds => And.imp_left (imp kinds)

theorem kind_of_together {kind : LockKind} (used : (together k a b).kinds.has kind = true) :
    a.kinds.has kind = true ∨ b.kinds.has kind = true := by
  simpa [together] using used

theorem mixed_of_together (flag : (together k a b).mixed = true) :
    a.mixed = true ∨ b.mixed = true ∨ 1 < k ∧ a.kinds.conflicts b.kinds = true := by
  simp only [together, Bool.or_eq_true, Bool.and_eq_true, decide_eq_true_eq] at flag
  tauto

theorem Attained.together (first : a.Attained P) (second : b.Attained Q) :
    (together k a b).Attained (LockKinds.Together P Q) := by
  obtain ⟨left, holds⟩ := first.possible
  obtain ⟨right, holds'⟩ := second.possible
  refine ⟨⟨_, left, right, rfl, holds, holds'⟩, fun kind used => ?_, fun flag => ?_⟩
  · rcases kind_of_together used with used | used
    · obtain ⟨kinds, chosen, found⟩ := first.kind kind used
      exact ⟨_, ⟨kinds, right, rfl, chosen, holds'⟩, by simp [found]⟩
    · obtain ⟨kinds, chosen, found⟩ := second.kind kind used
      exact ⟨_, ⟨left, kinds, rfl, holds, chosen⟩, by simp [found]⟩
  · rcases mixed_of_together flag with flag | flag | ⟨_, conflict⟩
    · obtain ⟨kinds, chosen, found⟩ := first.mixed flag
      exact ⟨_, ⟨kinds, right, rfl, chosen, holds'⟩, by simp [LockKinds.isMixed_union, found]⟩
    · obtain ⟨kinds, chosen, found⟩ := second.mixed flag
      exact ⟨_, ⟨left, kinds, rfl, holds, chosen⟩, by simp [LockKinds.isMixed_union, found]⟩
    · obtain ⟨kind, used, used'⟩ := LockKinds.conflicts_iff.mp conflict
      obtain ⟨kinds, chosen, found⟩ := first.kind _ used
      obtain ⟨kinds', chosen', found'⟩ := second.kind _ used'
      refine ⟨_, ⟨kinds, kinds', rfl, chosen, chosen'⟩, ?_⟩
      rw [LockKinds.isMixed_union, LockKinds.conflicts_iff.mpr ⟨kind, found, found'⟩, Bool.or_true]

/-- Where one of two children is satisfied, no conflict between them is counted. -/
theorem Attained.either (first : a.Attained P) (second : b.Attained Q) :
    (LockUse.together 1 a b).Attained fun kinds => P kinds ∨ Q kinds := by
  refine ⟨first.possible.imp fun kinds => .inl, fun kind used => ?_, fun flag => ?_⟩
  · rcases kind_of_together used with used | used
    · exact (first.kind kind used).imp fun kinds => And.imp_left .inl
    · exact (second.kind kind used).imp fun kinds => And.imp_left .inr
  · rcases mixed_of_together flag with flag | flag | ⟨many, _⟩
    · exact (first.mixed flag).imp fun kinds => And.imp_left .inl
    · exact (second.mixed flag).imp fun kinds => And.imp_left .inr
    · exact absurd many (by decide)

section Threshold

variable {ι : Type} {use : ι → LockUse} {rel : ι → LockRel} {items : List ι} {count : Nat}

/-- Some children can be satisfied in ways that are told beforehand; the others fill up the count. -/
theorem exists_counted (able : ∀ x ∈ items, ∃ kinds, rel x true kinds)
    (free : ∀ x ∈ items, rel x false .free) (chosen : List (ι × LockKinds))
    (among : (chosen.map Prod.fst).Sublist items) (ways : ∀ choice ∈ chosen, rel choice.1 true choice.2)
    (few : chosen.length ≤ count) (enough : count ≤ items.length) :
    ∃ kinds, LockRel.Counted (items.map rel) count kinds ∧ ∀ choice ∈ chosen, choice.2.Within kinds := by
  induction items generalizing chosen count with
  | nil =>
    obtain rfl : chosen = [] := List.map_eq_nil_iff.mp (List.sublist_nil.mp among)
    exact ⟨.free, LockRel.counted_nil.mpr ⟨Nat.le_zero.mp enough, rfl⟩, nofun⟩
  | cons x items ih =>
    obtain ⟨⟨own, way⟩, ableRest⟩ := List.forall_mem_cons.mp able
    obtain ⟨none, freeRest⟩ := List.forall_mem_cons.mp free
    rw [List.map_cons]
    rcases List.sublist_cons_iff.mp among with among | ⟨rest, same, among⟩
    · rcases Nat.lt_or_ge items.length count with all | spare
      · -- The count takes all children, so this one is satisfied in any way.
        obtain rfl : count = items.length + 1 := Nat.le_antisymm enough all
        have few : chosen.length ≤ items.length := by simpa using among.length_le
        obtain ⟨kinds, counted, within⟩ := ih ableRest freeRest _ among ways few le_rfl
        exact ⟨own.union kinds, LockRel.counted_cons_take way counted,
          fun choice member => (within choice member).trans (LockKinds.within_union_right ..)⟩
      · obtain ⟨kinds, counted, within⟩ := ih ableRest freeRest _ among ways few spare
        exact ⟨kinds, LockRel.counted_cons_skip none counted, within⟩
    · obtain ⟨⟨_, kinds⟩, chosen, rfl, rfl, rfl⟩ := List.map_eq_cons_iff.mp same
      obtain ⟨way, ways⟩ := List.forall_mem_cons.mp ways
      obtain ⟨count, rfl⟩ : ∃ fewer, count = fewer + 1 :=
        Nat.exists_eq_add_one.mpr (Nat.lt_of_lt_of_le (Nat.succ_pos _) few)
      obtain ⟨others, counted, within⟩ := ih ableRest freeRest _ among ways (Nat.le_of_succ_le_succ few)
        (Nat.le_of_succ_le_succ enough)
      exact ⟨kinds.union others, LockRel.counted_cons_take way counted, List.forall_mem_cons.mpr
        ⟨LockKinds.within_union_left .., fun choice member =>
          (within choice member).trans (LockKinds.within_union_right ..)⟩⟩

theorem exists_of_kind_threshold {kind : LockKind}
    (used : (threshold k (items.map use)).kinds.has kind = true) :
    ∃ x ∈ items, (use x).kinds.has kind = true := by
  induction items with
  | nil => exact absurd used (by simp [free])
  | cons x items ih =>
    rw [List.map_cons, threshold_cons] at used
    rcases kind_of_together used with own | others
    · exact ⟨x, List.mem_cons_self, own⟩
    · exact (ih others).imp fun y => And.imp_left (List.mem_cons_of_mem x)

/-- A threshold is marked for one of its children, or for two of them that conflict. -/
theorem exists_of_mixed_threshold (flag : (threshold k (items.map use)).mixed = true) :
    (∃ x ∈ items, (use x).mixed = true) ∨
      1 < k ∧ ∃ x y, [x, y].Sublist items ∧ (use x).kinds.conflicts (use y).kinds = true := by
  induction items with
  | nil => exact absurd flag (by simp [free])
  | cons x items ih =>
    rw [List.map_cons, threshold_cons] at flag
    rcases mixed_of_together flag with own | others | ⟨many, conflict⟩
    · exact .inl ⟨x, List.mem_cons_self, own⟩
    · refine (ih others).imp (fun ⟨y, member, found⟩ => ⟨y, List.mem_cons_of_mem x member, found⟩) ?_
      exact And.imp_right fun ⟨y, z, among, conflict⟩ => ⟨y, z, among.cons x, conflict⟩
    · obtain ⟨kind, own, others⟩ := LockKinds.conflicts_iff.mp conflict
      obtain ⟨y, member, found⟩ := exists_of_kind_threshold others
      exact .inr ⟨many, x, y, (List.singleton_sublist.mpr member).cons_cons x,
        LockKinds.conflicts_iff.mpr ⟨kind, own, found⟩⟩

/-- Of a threshold's children any one can be satisfied as wished, and any two if it takes two. -/
theorem attained_counted (each : ∀ x ∈ items, (use x).Attained (rel x true))
    (free : ∀ x ∈ items, rel x false .free) (positive : 0 < k) (enough : k ≤ items.length) :
    (threshold k (items.map use)).Attained (LockRel.Counted (items.map rel) k) := by
  have able : ∀ x ∈ items, ∃ kinds, rel x true kinds := fun x member => (each x member).possible
  have single {x : ι} {kinds : LockKinds} (member : x ∈ items) (way : rel x true kinds) :
      ∃ whole, LockRel.Counted (items.map rel) k whole ∧ kinds.Within whole := by
    obtain ⟨whole, counted, within⟩ := exists_counted able free [(x, kinds)]
      (List.singleton_sublist.mpr member) (List.forall_mem_singleton.mpr way) positive enough
    exact ⟨whole, counted, within (x, kinds) List.mem_cons_self⟩
  refine ⟨?_, fun kind used => ?_, fun flag => ?_⟩
  · obtain ⟨whole, counted, _⟩ := exists_counted able free [] (List.nil_sublist _) nofun
      (Nat.zero_le k) enough
    exact ⟨whole, counted⟩
  · obtain ⟨x, member, used⟩ := exists_of_kind_threshold used
    obtain ⟨kinds, way, found⟩ := (each x member).kind kind used
    obtain ⟨whole, counted, within⟩ := single member way
    exact ⟨whole, counted, LockKinds.within_iff_has.mp within kind found⟩
  · rcases exists_of_mixed_threshold flag with ⟨x, member, flag⟩ | ⟨many, x, y, among, conflict⟩
    · obtain ⟨kinds, way, mixed⟩ := (each x member).mixed flag
      obtain ⟨whole, counted, within⟩ := single member way
      exact ⟨whole, counted, LockKinds.isMixed_mono within mixed⟩
    · obtain ⟨kind, used, used'⟩ := LockKinds.conflicts_iff.mp conflict
      obtain ⟨kinds, way, found⟩ := (each x (among.subset (by simp))).kind _ used
      obtain ⟨kinds', way', found'⟩ := (each y (among.subset (by simp))).kind _ used'
      obtain ⟨whole, counted, within⟩ := exists_counted able free [(x, kinds), (y, kinds')]
        among (by simp [way, way']) many enough
      have left : kinds.Within whole := within (x, kinds) (by simp)
      have right : kinds'.Within whole := within (y, kinds') (by simp)
      exact ⟨whole, counted, LockKinds.isMixed_iff.mpr ⟨kind, LockKinds.within_iff_has.mp left _ found,
        LockKinds.within_iff_has.mp right _ found'⟩⟩

end Threshold

end LockUse

/-! ## Conditions -/

/-- What is left out needs no lock, and what needs one has no dissatisfaction. -/
theorem Condition.neverLocked {κ δ α : Type} (t : Condition κ δ α) : LockRel.NeverLocked t.Requires := by
  have both {x y : LockRel} (first : LockRel.NeverLocked x) (second : LockRel.NeverLocked y)
      {kinds : LockKinds} (chosen : LockKinds.Together (x false) (y false) kinds) : kinds = .free :=
    second kinds (chosen.of_free_left first)
  induction t using Condition.induct with
  | leaf note l =>
    rw [requires_leaf]
    intro kinds chosen
    cases l with
    | one | after l | older l => cases chosen.1
    | zero => exact chosen.2
    | key k | keyHash k | digest d | multi ks | multiA ks => exact chosen
  | wrap note w x ih =>
    rw [requires_wrap]
    intro kinds chosen
    cases w with
    | alt | swap | check | zeroNotEqual => exact ih kinds chosen
    | dupIf | nonzero => exact chosen
    | verify => cases chosen.1
  | pair note op x y ihX ihY =>
    rw [requires_pair]
    intro kinds chosen
    cases op with
    | andV | orC => cases chosen.1
    | andB | orB => exact both ihX ihY chosen
    | orD => exact chosen.elim nofun (both ihX ihY)
    | orI => exact chosen.elim (ihX kinds) (ihY kinds)
  | andOr note x y z ihX _ ihZ =>
    rw [requires_andOr]
    exact fun kinds chosen => chosen.elim nofun (both ihX ihZ)
  | thresh note k items ih =>
    rw [requires_thresh]
    exact fun kinds => LockRel.eq_free_of_counted (List.forall_mem_map.mpr ih)

namespace Typed.Validated

variable {κ δ : Type} [KeyLike κ] [DigestLike δ] {context : Context} {t x y z : Typed κ δ}
  {note : Attributes}

theorem lockUse_leaf {l : Leaf κ δ} (valid : Validated context (.leaf note l)) :
    note.budget.lockUse = (Budget.ofLeaf context l : Budget Word).lockUse :=
  (congrArg (·.lockUse) valid.spent :)

theorem lockUse_wrap {w : Wrapper} (valid : Validated context (.wrap note w x)) :
    note.budget.lockUse = x.budget.lockUse :=
  (congrArg (·.lockUse) valid.spent :).trans (by cases w <;> rfl)

theorem lockUse_pair {op : Connective} (valid : Validated context (.pair note op x y)) :
    note.budget.lockUse = .together (if op ∈ [.andV, .andB] then 2 else 1) x.budget.lockUse y.budget.lockUse := by
  refine (congrArg (·.lockUse) valid.spent :).trans ?_
  cases op
  exacts [LockUse.and_eq .., LockUse.and_eq .., LockUse.or_eq .., LockUse.or_eq .., LockUse.or_eq ..,
    LockUse.or_eq ..]

theorem lockUse_andOr (valid : Validated context (.andOr note x y z)) :
    note.budget.lockUse = .together 1 (.together 2 x.budget.lockUse y.budget.lockUse) z.budget.lockUse := by
  rw [← LockUse.or_eq, ← LockUse.and_eq]
  exact (congrArg (·.lockUse) valid.spent :)

theorem lockUse_thresh {k : Nat} {items : List (Typed κ δ)} (valid : Validated context (.thresh note k items)) :
    note.budget.lockUse = .threshold k (items.map fun x => x.budget.lockUse) := by
  refine (congrArg Budget.lockUse valid.spent).trans ?_
  change LockUse.threshold k ((items.map budget).map Budget.lockUse) = _
  rw [List.map_map]
  rfl

/-- What may be answered with no is so by a choice. -/
theorem requires_free (valid : Validated context t) (may : t.type.soundness.dissatisfiable = true) :
    t.Requires false .free := by
  obtain ⟨kinds, found, _⟩ := valid.allows_free may
  obtain ⟨chosen, _⟩ := (valid.lockPaths_represents false kinds).mp found
  exact t.neverLocked kinds chosen ▸ chosen

/-- The flags of a condition bound its choices. -/
theorem lockUse_bounds (valid : Validated context t) : t.budget.lockUse.Bounds (t.Requires true) := by
  induction t using Typed.induct with
  | leaf note l =>
    change note.budget.lockUse.Bounds _
    rw [valid.lockUse_leaf, Condition.requires_leaf]
    have lock {kinds : LockKinds} (unmixed : kinds.isMixed = false) :
        LockUse.Bounds ⟨kinds, false⟩ fun other => true = true ∧ other = kinds :=
      ⟨fun _ same => same.2 ▸ .refl kinds, fun _ _ same => same.2 ▸ unmixed⟩
    cases l with
    | one => exact (LockUse.bounds_free _).mono fun _ => And.right
    | zero => exact (LockUse.bounds_free _).mono fun _ chosen => nomatch chosen.1
    | after l => exact lock (LockKinds.unmixed_ofAbsolute l)
    | older l => exact lock (LockKinds.unmixed_ofRelative l)
    | key k | keyHash k | digest d | multi ks | multiA ks => exact LockUse.bounds_free _
  | wrap note w x ih =>
    change note.budget.lockUse.Bounds _
    rw [valid.lockUse_wrap, Condition.requires_wrap]
    cases w with
    | verify => exact (ih valid.wrap.1).mono fun _ => And.right
    | alt | swap | check | zeroNotEqual | dupIf | nonzero => exact ih valid.wrap.1
  | pair note op x y ihX ihY =>
    have first := ihX valid.pair.1
    have second := ihY valid.pair.2.1
    change note.budget.lockUse.Bounds _
    rw [valid.lockUse_pair, Condition.requires_pair]
    have later {k : Nat} := (second.right (a := x.budget.lockUse) (k := k)).mono
      fun kinds (chosen : LockKinds.Together (x.Requires false) (y.Requires true) kinds) =>
        chosen.of_free_left x.neverLocked
    cases op with
    | andV => exact (first.together (by decide) second).mono fun _ => And.right
    | andB => exact first.together (by decide) second
    | orB => exact (first.left.mono fun _ chosen => chosen.of_free_right y.neverLocked).or later
    | orD => exact (first.left.or later).mono fun _ => Or.imp_left And.right
    | orC => exact (first.left.or later).mono fun _ => And.right
    | orI => exact first.left.or second.right
  | andOr note x y z ihX ihY ihZ =>
    obtain ⟨validX, validY, validZ, _⟩ := valid.andOr
    change note.budget.lockUse.Bounds _
    rw [valid.lockUse_andOr, Condition.requires_andOr]
    have early := (ihX validX).together (k := 2) (by decide) (ihY validY)
    exact (early.left.or (ihZ validZ).right).mono fun _ =>
      Or.imp And.right fun chosen => chosen.of_free_left x.neverLocked
  | thresh note k items ih =>
    change note.budget.lockUse.Bounds _
    rw [valid.lockUse_thresh, Condition.requires_thresh]
    exact LockUse.bounds_counted (fun x member => ih x member (valid.thresh.1 x member))
      (fun x _ => x.neverLocked) (Nat.lt_or_ge 1 k)

/-- Without a fragment `0`, there is a choice behind each flag of a condition. -/
theorem lockUse_attained (valid : Validated context t) (possible : t.All (· ≠ .leaf .zero)) :
    t.budget.lockUse.Attained (t.Requires true) := by
  induction t using Typed.induct with
  | leaf note l =>
    change note.budget.lockUse.Attained _
    rw [valid.lockUse_leaf, Condition.requires_leaf]
    have lock {use : LockUse} {P : LockKinds → Prop} (unmixed : use.mixed = false) (holds : P use.kinds) :
        use.Attained P :=
      ⟨⟨_, holds⟩, fun _ used => ⟨_, holds, used⟩, fun mixed => absurd (mixed.symm.trans unmixed) nofun⟩
    cases l with
    | zero => exact absurd rfl ((Condition.all_leaf note _).mp possible)
    | one | after l | older l => exact lock rfl ⟨rfl, rfl⟩
    | key k | keyHash k | digest d | multi ks | multiA ks =>
      exact lock rfl (show LockKinds.free = .free from rfl)
  | wrap note w x ih =>
    have own := ih valid.wrap.1 ((Condition.all_wrap ..).mp possible).2
    change note.budget.lockUse.Attained _
    rw [valid.lockUse_wrap, Condition.requires_wrap]
    cases w with
    | verify => exact own.mono fun _ chosen => ⟨rfl, chosen⟩
    | alt | swap | check | zeroNotEqual | dupIf | nonzero => exact own
  | pair note op x y ihX ihY =>
    obtain ⟨validX, validY, _⟩ := valid.pair
    obtain ⟨_, possibleX, possibleY⟩ := (Condition.all_pair ..).mp possible
    obtain ⟨mayX, mayY⟩ := valid.dissatisfiable_of_pair
    have first := ihX validX possibleX
    have second := ihY validY possibleY
    change note.budget.lockUse.Attained _
    rw [valid.lockUse_pair, Condition.requires_pair]
    cases op with
    | andV => exact first.together second |>.mono fun _ chosen => ⟨rfl, chosen⟩
    | andB => exact first.together second
    | orB =>
      exact (first.either second).mono fun _ => Or.imp
        (LockKinds.together_free_right (validY.requires_free (mayY rfl)))
        (LockKinds.together_free_left (validX.requires_free (mayX (by simp))))
    | orD =>
      exact (first.either second).mono fun _ => Or.imp (fun chosen => ⟨rfl, chosen⟩)
        (LockKinds.together_free_left (validX.requires_free (mayX (by simp))))
    | orC =>
      exact (first.either second).mono fun _ chosen => ⟨rfl, chosen.imp_right
        (LockKinds.together_free_left (validX.requires_free (mayX (by simp))))⟩
    | orI => exact first.either second
  | andOr note x y z ihX ihY ihZ =>
    obtain ⟨validX, validY, validZ, _⟩ := valid.andOr
    obtain ⟨_, possibleX, possibleY, possibleZ⟩ := (Condition.all_andOr ..).mp possible
    change note.budget.lockUse.Attained _
    rw [valid.lockUse_andOr, Condition.requires_andOr]
    exact (((ihX validX possibleX).together (ihY validY possibleY)).either (ihZ validZ possibleZ)).mono
      fun _ => Or.imp (fun chosen => ⟨rfl, chosen⟩)
        (LockKinds.together_free_left (validX.requires_free valid.dissatisfiable_andOr.1))
  | thresh note k items ih =>
    obtain ⟨validItems, positive, enough, _⟩ := valid.thresh
    obtain ⟨_, possibleItems⟩ := (Condition.all_thresh ..).mp possible
    change note.budget.lockUse.Attained _
    rw [valid.lockUse_thresh, Condition.requires_thresh]
    exact LockUse.attained_counted (fun x member => ih x member (validItems x member) (possibleItems x member))
      (fun x member => (validItems x member).requires_free (valid.dissatisfiable_thresh.1 x member))
      positive enough

/-- If no mix is reported, no choice that satisfies a condition needs a height and a time for one lock,
so all of them are in the set that is kept. Without a fragment `0`, a mix that is reported is needed by
some choice. -/
theorem hasMixedLocks_exact (valid : Validated context t) :
    (t.hasMixedLocks = false → ∀ kinds, t.Requires true kinds →
      kinds.isMixed = false ∧ t.budget.lockPaths.sat.contains kinds = true) ∧
    (t.All (· ≠ .leaf .zero) → t.hasMixedLocks = true →
      ∃ kinds, t.Requires true kinds ∧ kinds.isMixed = true) := by
  refine ⟨fun flag kinds chosen => ?_, fun possible flag => (valid.lockUse_attained possible).mixed flag⟩
  have unmixed := valid.lockUse_bounds.unmixed flag kinds chosen
  exact ⟨unmixed, (valid.lockPaths_represents true kinds).mpr ⟨chosen, unmixed⟩⟩

/-- Two heights go together in `and_v(v:after(7),after(9))`; with a time for the second lock, the only
choice is mixed. -/
theorem hasMixedLocks_exact_twoLocks : ∃ t u : Typed PointKey Digest,
    Validated .segwit t ∧ t.hasMixedLocks = false ∧
      t.Requires true ⟨false, false, true, false⟩ ∧
      t.budget.lockPaths.sat.contains ⟨false, false, true, false⟩ = true ∧
    Validated .segwit u ∧ u.hasMixedLocks = true ∧
      ∃ kinds, u.Requires true kinds ∧ kinds.isMixed = true := by
  let height : AbsoluteLock := ⟨7, by decide, by decide⟩
  let later : AbsoluteLock := ⟨9, by decide, by decide⟩
  let time : AbsoluteLock := ⟨500000007, by decide, by decide⟩
  have heights : Validated .segwit (twoLocks .segwit height later : Typed PointKey Digest) :=
    validated_twoLocks height later
  have mixed : Validated .segwit (twoLocks .segwit height time : Typed PointKey Digest) :=
    validated_twoLocks height time
  have unflagged : (twoLocks .segwit height later : Typed PointKey Digest).hasMixedLocks = false := by
    decide +kernel
  have flagged : (twoLocks .segwit height time : Typed PointKey Digest).hasMixedLocks = true := by
    decide +kernel
  have chosen : (twoLocks .segwit height later : Typed PointKey Digest).Requires true
      ⟨false, false, true, false⟩ := by
    simp only [twoLocks, requires_ofFragment, Fragment.map, Requirements.ofFragment]
    exact ⟨rfl, .ofAbsolute height, .ofAbsolute later, rfl, ⟨rfl, rfl, rfl⟩, rfl, rfl⟩
  have possible : (twoLocks .segwit height time : Typed PointKey Digest).All (· ≠ .leaf .zero) := by
    simp [twoLocks, Fragment.children]
  exact ⟨_, _, heights, unflagged, chosen, (heights.hasMixedLocks_exact.1 unflagged _ chosen).2,
    mixed, flagged, mixed.hasMixedLocks_exact.2 possible flagged⟩

end Typed.Validated

end LockScript
