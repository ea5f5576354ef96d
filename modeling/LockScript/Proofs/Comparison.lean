import LockScript.Proofs.Elaboration

/-! # What compares as equal

Conditions are compared fragment by fragment, with keys and digests in their own orders and without a
look at notes. So two conditions compare as equal only if they are made of the same fragments, provided
that their keys are told apart by the order of keys. Points, x coordinates, names and digests always
are; of two keys in the long serialization it takes that they are on the curve.
-/

namespace LockScript

/-- The order tells the items of one list from those of another. -/
def Separates {α : Type} [Ord α] (items others : List α) : Prop :=
  ∀ x ∈ items, ∀ y ∈ others, compare x y = .eq → x = y

namespace Separates

variable {α : Type} [Ord α] {items others fewer fewer' : List α}

theorem of_lawful [Std.LawfulEqOrd α] (items others : List α) : Separates items others :=
  fun _ _ _ _ same => Std.LawfulEqOrd.eq_of_compare same

theorem mono (apart : Separates items others) (among : ∀ x ∈ fewer, x ∈ items)
    (among' : ∀ y ∈ fewer', y ∈ others) : Separates fewer fewer' :=
  fun x member y member' => apart x (among x member) y (among' y member')

/-- What two lists start with, and what they end with. -/
theorem append {rest rest' : List α} (apart : Separates (items ++ rest) (others ++ rest')) :
    Separates items others ∧ Separates rest rest' :=
  ⟨apart.mono (fun _ => List.mem_append_left _) fun _ => List.mem_append_left _,
    apart.mono (fun _ => List.mem_append_right _) fun _ => List.mem_append_right _⟩

/-- Lists whose items are told apart are equal if they compare as equal. -/
theorem eq_of_compare (apart : Separates items others) (same : compare items others = .eq) :
    items = others := by
  induction items generalizing others with
  | nil =>
    cases others with
    | nil => rfl
    | cons y rest => cases same
  | cons x items ih =>
    cases others with
    | nil => cases same
    | cons y rest =>
      rw [List.compare_cons_cons, Ordering.then_eq_eq] at same
      have head := apart x List.mem_cons_self y List.mem_cons_self same.1
      have tail := ih (apart.mono (fun _ => List.mem_cons_of_mem x) fun _ => List.mem_cons_of_mem y)
        same.2
      rw [head, tail]

end Separates

section Lawful

instance : Std.LawfulEqOrd HashKind where
  compare_self := by rintro (_ | _ | _ | _) <;> rfl
  eq_of_compare := by rintro (_ | _ | _ | _) (_ | _ | _ | _) same <;> first | rfl | cases same

instance : Std.LawfulEqOrd Digest where
  compare_self := Ordering.then_eq_eq.mpr ⟨Std.ReflOrd.compare_self, Std.ReflOrd.compare_self⟩
  eq_of_compare := by
    rintro ⟨kind, bytes, width⟩ ⟨kind', bytes', width'⟩ same
    obtain ⟨kinds, contents⟩ := Ordering.then_eq_eq.mp same
    obtain rfl := Std.LawfulEqOrd.eq_of_compare kinds
    obtain rfl := Std.LawfulEqOrd.eq_of_compare contents
    rfl

instance : Std.LawfulEqOrd NamedDigest where
  compare_self := Ordering.then_eq_eq.mpr ⟨Std.ReflOrd.compare_self, Std.ReflOrd.compare_self⟩
  eq_of_compare := by
    rintro ⟨kind, name⟩ ⟨kind', name'⟩ same
    obtain ⟨kinds, names⟩ := Ordering.then_eq_eq.mp same
    obtain rfl := Std.LawfulEqOrd.eq_of_compare kinds
    obtain rfl := Std.LawfulEqOrd.eq_of_compare names
    rfl

instance : Std.LawfulEqOrd PointKey where
  compare_self := Std.ReflOrd.compare_self (α := Bytes)
  eq_of_compare := by
    rintro ⟨odd, x⟩ ⟨odd', x'⟩ same
    obtain ⟨parity, coordinate⟩ := List.cons.inj (Std.LawfulEqOrd.eq_of_compare (α := Bytes) same)
    obtain rfl := Vector.toList_inj.mp coordinate
    cases odd <;> cases odd' <;> first | rfl | cases parity

instance : Std.LawfulEqOrd XOnlyKey where
  compare_self := Std.ReflOrd.compare_self (α := Bytes)
  eq_of_compare same :=
    congrArg XOnlyKey.mk (Vector.toList_inj.mp (Std.LawfulEqOrd.eq_of_compare (α := Bytes) same))

instance : Std.LawfulEqOrd KeyName where
  compare_self := Std.ReflOrd.compare_self (α := String)
  eq_of_compare same := congrArg KeyName.mk (Std.LawfulEqOrd.eq_of_compare (α := String) same)

instance : Std.LawfulEqOrd AbsoluteLock where
  compare_self := Std.ReflOrd.compare_self (α := Nat)
  eq_of_compare := by
    rintro ⟨value, _, _⟩ ⟨value', _, _⟩ same
    obtain rfl : value = value' := Nat.compare_eq_eq.mp same
    rfl

instance : Std.LawfulEqOrd RelativeLock where
  compare_self := Std.ReflOrd.compare_self (α := Nat)
  eq_of_compare := by
    rintro ⟨value, _, _⟩ ⟨value', _, _⟩ same
    obtain rfl : value = value' := Nat.compare_eq_eq.mp same
    rfl

instance : Std.LawfulEqOrd Wrapper where
  compare_self := by intro w; cases w <;> rfl
  eq_of_compare := by intro v w same; cases v <;> cases w <;> first | rfl | cases same

instance : Std.LawfulEqOrd Connective where
  compare_self := by intro op; cases op <;> rfl
  eq_of_compare := by intro op op' same; cases op <;> cases op' <;> first | rfl | cases same

end Lawful

/-- Thresholds whose items are told apart are equal if they compare as equal. -/
theorem Threshold.eq_of_compare {α : Type} [Ord α] {cap : Option Nat} {a b : Threshold α cap}
    (apart : Separates a.items b.items) (same : compare a b = .eq) : a = b := by
  obtain ⟨k, items, _, _, _⟩ := a
  obtain ⟨k', items', _, _, _⟩ := b
  obtain ⟨counts, lists⟩ := Ordering.then_eq_eq.mp same
  obtain rfl : k = k' := Nat.compare_eq_eq.mp counts
  obtain rfl : items = items' := apart.eq_of_compare lists
  rfl

namespace Leaf

variable {κ δ : Type} [Ord κ] [Ord δ] {l m : Leaf κ δ}

theorem rank_eq_of_order (same : l.order m = .eq) : l.rank = m.rank := by
  cases l <;> cases m <;> first | rfl | exact Nat.compare_eq_eq.mp same

/-- Leaves whose keys are told apart are equal if they compare as equal. -/
theorem eq_of_order [Std.LawfulEqOrd δ] (apart : Separates l.keys m.keys)
    (same : l.order m = .eq) : l = m := by
  have ranks := rank_eq_of_order same
  cases l with
  | one | zero => cases m <;> first | rfl | cases ranks
  | key a =>
    cases m with
    | key b => exact congrArg key (apart a List.mem_cons_self b List.mem_cons_self same)
    | _ => cases ranks
  | keyHash a =>
    cases m with
    | keyHash b => exact congrArg keyHash (apart a List.mem_cons_self b List.mem_cons_self same)
    | _ => cases ranks
  | after a =>
    cases m with
    | after b => exact congrArg after (Std.LawfulEqOrd.eq_of_compare same)
    | _ => cases ranks
  | older a =>
    cases m with
    | older b => exact congrArg older (Std.LawfulEqOrd.eq_of_compare same)
    | _ => cases ranks
  | digest d =>
    cases m with
    | digest d' => exact congrArg digest (Std.LawfulEqOrd.eq_of_compare same)
    | _ => cases ranks
  | multi ks =>
    cases m with
    | multi ks' => exact congrArg multi (Threshold.eq_of_compare apart same)
    | _ => cases ranks
  | multiA ks =>
    cases m with
    | multiA ks' => exact congrArg multiA (Threshold.eq_of_compare apart same)
    | _ => cases ranks

omit [Ord κ] [Ord δ] in
/-- Leaves come before or after all that has children. -/
theorem rank_outside (l : Leaf κ δ) : l.rank < 7 ∨ 15 < l.rank := by
  cases l <;> simp [rank]

end Leaf

namespace Condition

variable {κ δ α β : Type} [Ord κ] [Ord δ]

omit [Ord κ] [Ord δ] in
theorem rank_pair (note : α) (op : Connective) (x y : Condition κ δ α) :
    7 < (pair note op x y).rank ∧ (pair note op x y).rank ≠ 10 ∧ (pair note op x y).rank < 15 := by
  cases op <;> simp [rank]

/-! ## What compares as equal to a given root -/

theorem leaf_of_order {note : α} {l : Leaf κ δ} {u : Condition κ δ β}
    (same : order (leaf note l) u = .eq) : ∃ note' m, u = leaf note' m ∧ l.order m = .eq := by
  have outside := l.rank_outside
  cases u with
  | leaf note' m => exact ⟨note', m, rfl, same⟩
  | wrap | andOr | thresh =>
    have ranks : l.rank = _ := Nat.compare_eq_eq.mp same
    simp only [rank] at ranks
    omega
  | pair note' op x y =>
    have inside := rank_pair note' op x y
    have ranks : l.rank = _ := Nat.compare_eq_eq.mp same
    omega

theorem wrap_of_order {note : α} {w : Wrapper} {x : Condition κ δ α} {u : Condition κ δ β}
    (same : order (wrap note w x) u = .eq) : ∃ note' x', u = wrap note' w x' ∧ order x x' = .eq := by
  cases u with
  | wrap note' w' x' =>
    obtain ⟨wrappers, below⟩ := Ordering.then_eq_eq.mp same
    obtain rfl := Std.LawfulEqOrd.eq_of_compare wrappers
    exact ⟨note', x', rfl, below⟩
  | leaf _ m =>
    have outside := m.rank_outside
    have ranks : 7 = m.rank := Nat.compare_eq_eq.mp same
    omega
  | pair note' op x' y' =>
    have inside := rank_pair note' op x' y'
    have ranks : 7 = _ := Nat.compare_eq_eq.mp same
    omega
  | andOr | thresh => cases same

theorem pair_of_order {note : α} {op : Connective} {x y : Condition κ δ α} {u : Condition κ δ β}
    (same : order (pair note op x y) u = .eq) :
    ∃ note' x' y', u = pair note' op x' y' ∧ order x x' = .eq ∧ order y y' = .eq := by
  have inside := rank_pair note op x y
  cases u with
  | pair note' op' x' y' =>
    obtain ⟨connectives, below⟩ := Ordering.then_eq_eq.mp same
    obtain rfl := Std.LawfulEqOrd.eq_of_compare connectives
    exact ⟨note', x', y', rfl, Ordering.then_eq_eq.mp below⟩
  | leaf _ m =>
    have outside := m.rank_outside
    have ranks : _ = m.rank := Nat.compare_eq_eq.mp same
    omega
  | wrap | andOr | thresh =>
    have ranks : (pair note op x y).rank = _ := Nat.compare_eq_eq.mp same
    rw [ranks] at inside
    simp [rank] at inside

theorem andOr_of_order {note : α} {x y z : Condition κ δ α} {u : Condition κ δ β}
    (same : order (andOr note x y z) u = .eq) :
    ∃ note' x' y' z', u = andOr note' x' y' z' ∧
      order x x' = .eq ∧ order y y' = .eq ∧ order z z' = .eq := by
  cases u with
  | andOr note' x' y' z' =>
    obtain ⟨first, below⟩ := Ordering.then_eq_eq.mp same
    exact ⟨note', x', y', z', rfl, first, Ordering.then_eq_eq.mp below⟩
  | leaf _ m =>
    have outside := m.rank_outside
    have ranks : 10 = m.rank := Nat.compare_eq_eq.mp same
    omega
  | pair note' op x' y' =>
    have inside := rank_pair note' op x' y'
    have ranks : 10 = _ := Nat.compare_eq_eq.mp same
    omega
  | wrap | thresh => cases same

theorem thresh_of_order {note : α} {k : Nat} {items : List (Condition κ δ α)} {u : Condition κ δ β}
    (same : order (thresh note k items) u = .eq) :
    ∃ note' items', u = thresh note' k items' ∧ orderAll items items' = .eq := by
  cases u with
  | thresh note' k' items' =>
    obtain ⟨counts, below⟩ := Ordering.then_eq_eq.mp same
    obtain rfl : k = k' := Nat.compare_eq_eq.mp counts
    exact ⟨note', items', rfl, below⟩
  | leaf _ m =>
    have outside := m.rank_outside
    have ranks : 15 = m.rank := Nat.compare_eq_eq.mp same
    omega
  | pair note' op x' y' =>
    have inside := rank_pair note' op x' y'
    have ranks : 15 = _ := Nat.compare_eq_eq.mp same
    omega
  | wrap | andOr => cases same

theorem bareAll_eq_of_orderAll {items : List (Condition κ δ α)} {others : List (Condition κ δ β)}
    (below : ∀ x ∈ items, ∀ {u : Condition κ δ β}, Separates x.keys u.keys → order x u = .eq →
      x.bare = u.bare)
    (apart : Separates (items.flatMap keys) (others.flatMap keys))
    (same : orderAll items others = .eq) : bareAll items = bareAll others := by
  induction items generalizing others with
  | nil =>
    cases others with
    | nil => rfl
    | cons y others => cases same
  | cons x items ih =>
    cases others with
    | nil => cases same
    | cons y others =>
      obtain ⟨head, rest⟩ := List.forall_mem_cons.mp below
      obtain ⟨first, later⟩ := Ordering.then_eq_eq.mp same
      rw [List.flatMap_cons, List.flatMap_cons] at apart
      obtain ⟨apartX, apartRest⟩ := apart.append
      simp only [bareAll, head apartX first, ih rest apartRest later]

/-- Conditions whose keys are told apart are made of the same fragments if they compare as equal. -/
theorem bare_eq_of_order [Std.LawfulEqOrd δ] {t : Condition κ δ α} {u : Condition κ δ β}
    (apart : Separates t.keys u.keys) (same : order t u = .eq) : t.bare = u.bare := by
  induction t using induct generalizing u with
  | leaf _ l =>
    obtain ⟨_, m, rfl, leaves⟩ := leaf_of_order same
    rw [keys_leaf, keys_leaf] at apart
    exact congrArg (leaf ()) (Leaf.eq_of_order apart leaves)
  | wrap _ w x ih =>
    obtain ⟨_, x', rfl, below⟩ := wrap_of_order same
    rw [keys_wrap, keys_wrap] at apart
    exact congrArg (wrap () w) (ih apart below)
  | pair _ op x y ihX ihY =>
    obtain ⟨_, x', y', rfl, left, right⟩ := pair_of_order same
    rw [keys_pair, keys_pair] at apart
    obtain ⟨apartX, apartY⟩ := apart.append
    simp only [bare, ihX apartX left, ihY apartY right]
  | andOr _ x y z ihX ihY ihZ =>
    obtain ⟨_, x', y', z', rfl, first, second, third⟩ := andOr_of_order same
    rw [keys_andOr, keys_andOr] at apart
    obtain ⟨apartXY, apartZ⟩ := apart.append
    obtain ⟨apartX, apartY⟩ := apartXY.append
    simp only [bare, ihX apartX first, ihY apartY second, ihZ apartZ third]
  | thresh _ k items ih =>
    obtain ⟨_, items', rfl, below⟩ := thresh_of_order same
    rw [keys_thresh, keys_thresh] at apart
    exact congrArg (thresh () k) (bareAll_eq_of_orderAll ih apart below)

/-! ## Notes play no part -/

omit [Ord κ] [Ord δ] in
@[simp] theorem rank_bare (t : Condition κ δ α) : t.bare.rank = t.rank := by
  cases t with
  | pair _ op x y => cases op <;> rfl
  | leaf | wrap | andOr | thresh => rfl

theorem orderAll_bareAll {items : List (Condition κ δ α)}
    (below : ∀ x ∈ items, ∀ u : Condition κ δ β, order x.bare u.bare = order x u)
    (others : List (Condition κ δ β)) :
    orderAll (bareAll items) (bareAll others) = orderAll items others := by
  induction items generalizing others with
  | nil => cases others <;> rfl
  | cons x items ih =>
    obtain ⟨head, tail⟩ := List.forall_mem_cons.mp below
    cases others with
    | nil => rfl
    | cons y others => simp only [bareAll, orderAll, head, ih tail]

/-- Comparing conditions is comparing their fragments. -/
theorem order_bare (t : Condition κ δ α) (u : Condition κ δ β) :
    order t.bare u.bare = order t u := by
  -- Roots of different kinds are compared by rank, which is a constant except for connectives.
  induction t using induct generalizing u with
  | leaf _ l =>
    cases u with
    | leaf _ m => rfl
    | pair note op x y => exact congrArg (compare l.rank) (rank_bare (pair note op x y))
    | wrap | andOr | thresh => rfl
  | wrap _ w x ih =>
    cases u with
    | wrap _ w' x' => exact congrArg (compare w w').then (ih x')
    | pair note op x y => exact congrArg (compare 7) (rank_bare (pair note op x y))
    | leaf | andOr | thresh => rfl
  | pair note op x y ihX ihY =>
    cases u with
    | pair _ op' x' y' => simp only [bare, order, ihX, ihY]
    | leaf | wrap | andOr | thresh =>
      exact congrArg (compare · _) (rank_bare (pair note op x y))
  | andOr _ x y z ihX ihY ihZ =>
    cases u with
    | andOr _ x' y' z' => simp only [bare, order, ihX, ihY, ihZ]
    | pair note op x y => exact congrArg (compare 10) (rank_bare (pair note op x y))
    | leaf | wrap | thresh => rfl
  | thresh _ k items ih =>
    cases u with
    | thresh _ k' items' =>
      exact congrArg (compare k k').then (orderAll_bareAll ih items')
    | pair note op x y => exact congrArg (compare 15) (rank_bare (pair note op x y))
    | leaf | wrap | andOr => rfl

@[simp] theorem beq_bare (t u : Condition κ δ α) : (t.bare == u.bare) = (t == u) :=
  congrArg (· == .eq) (order_bare t u)

theorem beq_iff_order {t u : Condition κ δ α} : (t == u) = true ↔ order t u = .eq :=
  show (order t u == .eq) = true ↔ order t u = .eq from beq_iff_eq

end Condition

end LockScript
