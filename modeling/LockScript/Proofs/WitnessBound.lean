import LockScript.Proofs.ExactBudget
import LockScript.Proofs.LockPaths
import LockScript.Proofs.FreeChoice

/-! # Bounds on witnesses

A budget bounds the bytes of a witness, its elements, and the bytes of a scriptSig that pushes it. All
three add up element by element, so each is followed through the tree in the same way: whatever the
search finds for a fragment is within the budget of the fragment, on a combination of locks that is
kept for it.
-/

namespace LockScript

/-- What of a witness is measured. -/
inductive Measure where
  /-- The bytes of the elements and their lengths. -/
  | bytes
  /-- The number of elements. -/
  | items
  /-- The bytes of a scriptSig. -/
  | pushes

namespace Measure

variable (m : Measure)

/-- What one element adds. -/
def weight : Measure → Bytes → Nat
  | bytes => elementSize
  | items => fun _ => 1
  | pushes => fun element => (Script.pushElement element).bytes.length

/-- What a whole stack comes to. -/
def weigh (stack : List Bytes) : Nat :=
  sumOf m.weight stack

/-- The bound in a usage. -/
def bound : Measure → Usage Nat → Nat
  | bytes => Usage.witnessSize
  | items => Usage.witnessItems
  | pushes => Usage.scriptSigSize

/-- The choice between a size in bytes and a number of elements. -/
def cost : Measure → (size count : Nat) → Nat
  | bytes | pushes => fun size _ => size
  | items => fun _ count => count

@[simp] theorem weigh_nil : m.weigh [] = 0 :=
  rfl

@[simp] theorem weigh_cons (element : Bytes) (rest : List Bytes) :
    m.weigh (element :: rest) = m.weight element + m.weigh rest :=
  rfl

@[simp] theorem weigh_append (first second : List Bytes) :
    m.weigh (first ++ second) = m.weigh first + m.weigh second :=
  sumOf_append m.weight first second

@[simp] theorem weigh_reverse (stack : List Bytes) : m.weigh stack.reverse = m.weigh stack := by
  induction stack with
  | nil => rfl
  | cons element rest ih =>
    rw [List.reverse_cons, weigh_append, ih, weigh_cons, weigh_cons, weigh_nil]
    omega

theorem weigh_flatMap {α : Type} (f : α → List Bytes) (parts : List α) :
    m.weigh (parts.flatMap f) = (parts.map fun part => m.weigh (f part)).sum := by
  induction parts with
  | nil => rfl
  | cons part rest ih => rw [List.flatMap_cons, weigh_append, ih, List.map_cons, List.sum_cons]

theorem weigh_replicate (count : Nat) : m.weigh (List.replicate count []) = count := by
  induction count with
  | zero => rfl
  | succ count ih =>
    rw [List.replicate_succ, weigh_cons, ih, Nat.add_comm]
    cases m <;> rfl

/-- An element takes one byte besides its own, unless it is long. -/
theorem weight_le {element : Bytes} {size : Nat} (fits : element.length + 1 ≤ size)
    (short : element.length < 0x4c) : m.weight element ≤ m.cost size 1 := by
  cases m with
  | bytes =>
    change element.length + Bytes.compactSizeLength element.length ≤ size
    rw [Bytes.compactSizeLength, if_pos (by omega)]
    exact fits
  | items => exact Nat.le_refl 1
  | pushes =>
    change (Script.pushElement element).bytes.length ≤ size
    rw [Script.pushElement]
    split
    · exact Nat.le_trans (Nat.le_add_left 1 element.length) fits
    split
    · exact Nat.le_trans (Nat.le_add_left 1 element.length) fits
    · exact (length_bytes_push short).trans_le fits

theorem cost_add (size count size' count' : Nat) :
    m.cost size count + m.cost size' count' = m.cost (size + size') (count + count') := by
  cases m <;> rfl

theorem bound_pushes (size count exec : Nat) :
    m.bound (Usage.pushes size count size exec) = m.cost size count := by
  cases m <;> rfl

theorem bound_followedBy (a b : Usage Nat) (shift : Nat) :
    m.bound (a.followedBy b shift) = m.bound a + m.bound b := by
  cases m <;> rfl

theorem bound_worst (a b : Usage Nat) : m.bound (a.worst b) = max (m.bound a) (m.bound b) := by
  cases m <;> rfl

/-- The elements that choose a branch. -/
theorem bound_withSelector (a : Usage Nat) : m.weight [1] + m.bound a ≤ m.bound (a.withSelector 2) ∧
    m.weight [] + m.bound a ≤ m.bound (a.withSelector 1) := by
  cases m with
  | bytes => exact ⟨Nat.le_of_eq (Nat.add_comm 2 _), Nat.le_of_eq (Nat.add_comm 1 _)⟩
  | items | pushes => exact ⟨Nat.le_of_eq (Nat.add_comm 1 _), Nat.le_of_eq (Nat.add_comm 1 _)⟩

/-- All measures of a threshold are bounded if one is, each on its own. -/
theorem bound_threshold? {k execItems : Nat} {items : List (Option (Usage Nat) × Option (Usage Nat))}
    {parts : List (Bool × Nat)}
    (each : List.Forall₂ (fun pair part => ∃ u, Usage.forAnswer part.1 pair = some u ∧ part.2 ≤ m.bound u)
      items parts) (exact : parts.countP Prod.fst = k) :
    ∃ u, Usage.threshold? k execItems items = some u ∧ (parts.map Prod.snd).sum ≤ m.bound u := by
  obtain ⟨most, found, le⟩ := Usage.exists_thresholdMeasure? each exact
  have measured (a : Usage.Tally) : ∃ total, Usage.thresholdMeasure? a.of k items = some total :=
    Usage.exists_thresholdMeasure?_of found
  choose total measured using measured
  refine ⟨_, Usage.threshold?_ofTallies measured execItems, ?_⟩
  cases m with
  | bytes => exact le.trans (Nat.le_of_eq (Option.some.inj (found.symm.trans (measured .witnessSize))))
  | items => exact le.trans (Nat.le_of_eq (Option.some.inj (found.symm.trans (measured .witnessItems))))
  | pushes => exact le.trans (Nat.le_of_eq (Option.some.inj (found.symm.trans (measured .scriptSigSize))))

theorem bound_thresholdNone? {execItems : Nat} {dissats : List (Option (Usage Nat))} {parts : List Nat}
    (each : List.Forall₂ (fun dissat n => ∃ d, dissat = some d ∧ n ≤ m.bound d) dissats parts) :
    ∃ u, Usage.thresholdNone? execItems dissats = some u ∧ parts.sum ≤ m.bound u := by
  have shape : ∃ usages : List (Usage Nat), dissats = usages.map some ∧
      parts.sum ≤ (usages.map m.bound).sum := by
    induction each with
    | nil => exact ⟨[], rfl, Nat.le_refl 0⟩
    | cons head _ ih =>
      obtain ⟨usages, rfl, le⟩ := ih
      obtain ⟨d, rfl, le'⟩ := head
      refine ⟨d :: usages, rfl, ?_⟩
      rw [List.sum_cons, List.map_cons, List.sum_cons]
      exact Nat.add_le_add le' le
  obtain ⟨usages, rfl, le⟩ := shape
  refine ⟨_, Usage.thresholdNone?_map_some usages, ?_⟩
  cases m <;> exact le

end Measure

/-- A witness of some weight is reckoned with: it needs no locks but those allowed, and weighs no more
than a usage says. -/
structure Reckoned (m : Measure) (allowed : LockKinds) (paths : LockSet) (usage : Option (Usage Nat))
    (weight : Nat) : Prop where
  allows : paths.Allows allowed
  within : ∃ u, usage = some u ∧ weight ≤ m.bound u

namespace Reckoned

variable {m : Measure} {allowed : LockKinds} {paths paths' : LockSet} {usage usage' : Option (Usage Nat)}
  {weight weight' : Nat}

theorem mono (reckoned : Reckoned m allowed paths usage weight) (le : weight' ≤ weight) :
    Reckoned m allowed paths usage weight' := by
  obtain ⟨allows, u, found, within⟩ := reckoned
  exact ⟨allows, u, found, le.trans within⟩

theorem of_free (reckoned : Reckoned m .free paths usage weight) :
    Reckoned m allowed paths usage weight :=
  ⟨reckoned.allows.of_free, reckoned.within⟩

theorem followedBy (first : Reckoned m allowed paths usage weight)
    (second : Reckoned m allowed paths' usage' weight') (unmixed : allowed.isMixed = false) (shift : Nat) :
    Reckoned m allowed (paths.join paths') (Usage.followedBy? usage usage' shift) (weight + weight') := by
  obtain ⟨allows, u, rfl, within⟩ := first
  obtain ⟨allows', u', rfl, within'⟩ := second
  refine ⟨allows.join allows' unmixed, _, rfl, ?_⟩
  rw [m.bound_followedBy]
  exact Nat.add_le_add within within'

theorem left (reckoned : Reckoned m allowed paths usage weight) :
    Reckoned m allowed (paths.union paths') (Usage.worst? usage usage') weight := by
  obtain ⟨allows, u, rfl, within⟩ := reckoned
  refine ⟨allows.union_left, ?_⟩
  cases usage' with
  | none => exact ⟨u, rfl, within⟩
  | some u' => exact ⟨_, rfl, by rw [m.bound_worst]; exact within.trans (Nat.le_max_left _ _)⟩

theorem right (reckoned : Reckoned m allowed paths' usage' weight) :
    Reckoned m allowed (paths.union paths') (Usage.worst? usage usage') weight := by
  obtain ⟨allows, u, rfl, within⟩ := reckoned
  refine ⟨allows.union_right, ?_⟩
  cases usage with
  | none => exact ⟨u, rfl, within⟩
  | some u' => exact ⟨_, rfl, by rw [m.bound_worst]; exact within.trans (Nat.le_max_right _ _)⟩

theorem select (reckoned : Reckoned m allowed paths usage weight) :
    Reckoned m allowed paths (usage.map (·.withSelector 2)) (m.weight [1] + weight) ∧
      Reckoned m allowed paths (usage.map (·.withSelector 1)) (m.weight [] + weight) := by
  obtain ⟨allows, u, rfl, within⟩ := reckoned
  obtain ⟨one, zero⟩ := m.bound_withSelector u
  exact ⟨⟨allows, _, rfl, (Nat.add_le_add_left within _).trans one⟩,
    ⟨allows, _, rfl, (Nat.add_le_add_left within _).trans zero⟩⟩

end Reckoned

namespace Budget

/-- The usage for one of the two answers. -/
def pick (budget : Budget Nat) (answer : Bool) : Option (Usage Nat) :=
  if answer then budget.sat else budget.dissat

/-- A budget reckons with a witness of some weight for an answer. No lock is needed for a no. -/
def Reckons (budget : Budget Nat) (m : Measure) (allowed : LockKinds) (answer : Bool) (weight : Nat) :
    Prop :=
  Reckoned m (if answer then allowed else .free) (budget.lockPaths.pick answer) (budget.pick answer)
    weight

variable {budget x y z : Budget Nat} {m : Measure} {allowed : LockKinds} {answer : Bool} {weight : Nat}

theorem Reckons.withoutMixedPaths (reckons : budget.Reckons m allowed answer weight) :
    budget.withoutMixedPaths.Reckons m allowed answer weight := by
  have inhabited := reckons.allows.isInhabited
  obtain ⟨allows, u, found, within⟩ := reckons
  refine ⟨allows, u, ?_, within⟩
  cases answer with
  | false => exact (if_pos inhabited).trans found
  | true => exact (if_pos inhabited).trans found

/-- As many children are satisfied as a threshold asks for. -/
theorem reckons_threshold (unmixed : allowed.isMixed = false) {items : List (Budget Nat)}
    {parts : List (Bool × Nat)}
    (each : List.Forall₂ (fun x part => x.Reckons m allowed part.1 part.2) items parts) :
    (Budget.threshold (parts.countP Prod.fst) items).Reckons m allowed true
      (parts.map Prod.snd).sum := by
  constructor
  · change ((LockPaths.byCount (items.map lockPaths)).getD (parts.countP Prod.fst) .empty).Allows allowed
    rw [← Function.id_comp Prod.fst, ← List.countP_map]
    refine LockPaths.allows_byCount unmixed ?_
    rw [List.forall₂_map_left_iff, List.forall₂_map_right_iff]
    refine each.imp fun x part reckons => ?_
    have allows := reckons.allows
    split at allows
    · exact allows
    · exact allows.of_free
  · refine m.bound_threshold? ?_ rfl
    rw [List.forall₂_map_left_iff]
    exact each.imp fun x part reckons => reckons.within

/-- All children of a threshold are dissatisfied. -/
theorem reckons_thresholdNone {k : Nat} {items : List (Budget Nat)} {parts : List Nat}
    (each : List.Forall₂ (fun x n => x.Reckons m allowed false n) items parts) :
    (Budget.threshold k items).Reckons m allowed false parts.sum := by
  constructor
  · have free : LockKinds.free.isMixed = false := rfl
    have allows : ((LockPaths.byCount (items.map lockPaths)).getD
        ((List.replicate parts.length false).countP id) .empty).Allows .free := by
      refine LockPaths.allows_byCount free ?_
      rw [List.forall₂_map_left_iff, ← List.map_const', List.forall₂_map_right_iff]
      exact each.imp fun x n reckons => reckons.allows
    rwa [List.countP_replicate] at allows
  · refine m.bound_thresholdNone? ?_
    rw [List.forall₂_map_left_iff]
    exact each.imp fun x n reckons => reckons.within

end Budget

/-- A search in material with signatures that weigh no more than reckoned with, for a transaction that
only meets locks of the allowed kinds. -/
structure Search.Reckonable {κ : Type} [PublicKey κ] (search : Search κ) (context : Context) (m : Measure)
    (allowed : LockKinds) : Prop where
  scheme : search.scheme = context.scheme
  weight_le : ∀ key signature,
    search.material.signature? search.scheme search.leafHash key = some signature →
      m.weight signature ≤ m.cost (Budget.signatureSize context.scheme) 1
  older : ∀ lock, search.material.meetsOlder lock = true → (LockKinds.ofRelative lock).Within allowed
  after : ∀ lock, search.material.meetsAfter lock = true → (LockKinds.ofAbsolute lock).Within allowed
  unmixed : allowed.isMixed = false

section Leaf

variable {κ : Type} [PublicKey κ] [LawfulPublicKey κ] {context : Context} {search : Search κ}
  {allowed : LockKinds} {m : Measure}

/-- The key that a `pk_h` reveals takes as many bytes as its push. -/
theorem PublicKey.length_pushed {key : κ} (permitted : context.checkKey key = .ok ()) :
    (PublicKey.pushed context.scheme key).length + 1 = context.keyLength key := by
  have short := PublicKey.length_pushed_le context.scheme key
  rw [← Script.length_bytes_pushKey permitted, Script.pushKey,
    length_bytes_push (Nat.lt_of_le_of_lt short (by decide))]

theorem weigh_le_of_forall {stack : List Bytes} {size : Nat}
    (fits : ∀ element ∈ stack, m.weight element ≤ m.cost size 1) :
    m.weigh stack ≤ m.cost (size * stack.length) stack.length := by
  induction stack with
  | nil => exact Nat.zero_le _
  | cons element rest ih =>
    obtain ⟨first, below⟩ := List.forall_mem_cons.mp fits
    have others := ih below
    rw [Measure.weigh_cons, List.length_cons, Nat.mul_succ]
    cases m with
    | bytes | pushes => exact (Nat.add_le_add first others).trans (Nat.le_of_eq (Nat.add_comm _ _))
    | items => exact (Nat.add_le_add first others).trans (Nat.le_of_eq (Nat.add_comm _ _))

omit [LawfulPublicKey κ] in
private theorem gives_signature_weight (reckonable : search.Reckonable context m allowed) (key : κ) :
    (search.signature key).Gives fun taken =>
      ∃ signature, taken = [signature] ∧
        m.weight signature ≤ m.cost (Budget.signatureSize context.scheme) 1 := by
  rw [Search.signature]
  cases found : search.material.signature? search.scheme search.leafHash key with
  | none => exact Witness.gives_impossible
  | some signature =>
    exact Witness.gives_stack.mpr ⟨signature, rfl, reckonable.weight_le key signature found⟩

/-- Each place takes a byte, and a signature the bytes that are left. -/
private theorem weigh_places {slots : List (Option Bytes)} {places : List (Bool × Bytes)} {size : Nat}
    (positive : 1 ≤ size)
    (fits : ∀ signature, some signature ∈ slots → m.weight signature ≤ m.cost size 1)
    (each : List.Forall₂ Fills slots places) : m.weigh (places.map Prod.snd) ≤
      m.cost (places.length + (size - 1) * places.countP Prod.fst) places.length := by
  induction each with
  | nil => exact Nat.zero_le _
  | @cons slot place slots places head _ ih =>
    have below := ih fun signature member => fits signature (List.mem_cons_of_mem _ member)
    have weight : m.weight place.2 ≤ m.cost (1 + (size - 1) * place.1.toNat) 1 := by
      rcases head with ⟨holds, rfl⟩ | rfl
      · rw [holds, Bool.toNat_true, Nat.mul_one, Nat.add_sub_cancel' positive]
        exact fits place.2 List.mem_cons_self
      · exact m.weight_le (Nat.le_refl 1) (by decide)
    have count : (place :: places).countP Prod.fst = places.countP Prod.fst + place.1.toNat := by
      rw [List.countP_cons]
      cases place.1 <;> rfl
    rw [List.map_cons, Measure.weigh_cons, count, List.length_cons, Nat.mul_add]
    refine (Nat.add_le_add weight below).trans (Nat.le_of_eq ?_)
    rw [m.cost_add]
    congr 1 <;> omega

omit [LawfulPublicKey κ] in
private theorem gives_multi_weight (reckonable : search.Reckonable context m allowed)
    (ecdsa : context.scheme = .ecdsa) (ks : Threshold κ multiCap) : (search.multi ks.k ks.items).Gives fun answer taken =>
      m.weigh taken ≤ m.cost (if answer then 1 + 73 * ks.k else ks.k + 1) (ks.k + 1) where
  sat := by
    let signatures := ks.items.filterMap (search.material.signature? search.scheme search.leafHash)
    simp only [Search.multi]
    split
    next => exact Witness.gives_impossible
    next enough =>
      obtain ⟨kept, length⟩ := keepShortest_sublist ks.k signatures
      have fits (element : Bytes) (member : element ∈ keepShortest ks.k signatures) :
          m.weight element ≤ m.cost 73 1 := by
        obtain ⟨key, _, found⟩ := List.mem_filterMap.mp (kept.subset member)
        have le := reckonable.weight_le key element found
        rwa [ecdsa] at le
      have weight := weigh_le_of_forall fits
      rw [length (Nat.le_of_not_lt enough)] at weight
      refine Witness.gives_stack.mpr ?_
      rw [m.weigh_reverse, Measure.weigh_cons, if_pos trivial, Nat.add_comm ks.k]
      refine (Nat.add_le_add (m.weight_le (Nat.le_refl 1) (by decide)) weight).trans ?_
      exact Nat.le_of_eq (m.cost_add _ _ _ _)
  dissat := by
    refine Witness.gives_stack.mpr ?_
    rw [m.weigh_reverse, m.weigh_replicate]
    exact Nat.le_of_eq (by cases m <;> rfl)

omit [LawfulPublicKey κ] in
private theorem gives_multiA_weight (reckonable : search.Reckonable context m allowed)
    (ks : Threshold κ multiACap) : (search.multiA ks.k ks.items).Gives fun answer taken =>
      m.weigh taken ≤ m.cost (if answer then
        ks.items.length + (Budget.signatureSize context.scheme - 1) * ks.k else ks.items.length)
        ks.items.length where
  sat := by
    simp only [Search.multiA]
    split
    next items filled =>
      obtain ⟨places, fills, exact, rfl⟩ := fillSlots?_eq_some filled
      have length : places.length = ks.items.length := by simpa using fills.length_eq.symm
      have fits (signature : Bytes) (member : some signature ∈ ks.items.reverse.map
          (search.material.signature? search.scheme search.leafHash)) :
          m.weight signature ≤ m.cost (Budget.signatureSize context.scheme) 1 := by
        obtain ⟨key, _, found⟩ := List.mem_map.mp member
        exact reckonable.weight_le key signature found
      have weight := weigh_places (by cases context.scheme <;> decide) fits fills
      rw [exact, length] at weight
      refine Witness.gives_stack.mpr ?_
      rw [m.weigh_reverse, if_pos trivial]
      exact weight
    next => exact Witness.gives_impossible
  dissat := by
    refine Witness.gives_stack.mpr ?_
    rw [m.weigh_reverse, m.weigh_replicate]
    exact Nat.le_of_eq (by cases m <;> rfl)

/-- What is found for a leaf is within its budget. -/
theorem Search.reckons_leaf (reckonable : search.Reckonable context m allowed) {l : Leaf κ Digest}
    (permitted : context.checkFragment (.leaf l : Fragment κ Digest (Typed κ Digest)) = .ok ()) :
    (search.ofLeaf l).Gives fun answer taken =>
      (Budget.ofLeaf context l).Reckons m allowed answer (m.weigh taken) := by
  have free {answer : Bool} {usage : Option (Usage Nat)} {u : Usage Nat} {weight : Nat}
      (found : usage = some u) (le : weight ≤ m.bound u) :
      Reckoned m (if answer then allowed else .free) .free usage weight :=
    ⟨LockSet.allows_free, u, found, le⟩
  have fits {size : Nat} {element : Bytes} (lt : element.length < size) (short : size ≤ 0x4c) :
      m.weight element ≤ m.cost size 1 :=
    m.weight_le lt (Nat.lt_of_lt_of_le lt short)
  have lock (met : Bool) (value : Nat) (kinds : LockKinds) (within : met = true → kinds.Within allowed) :
      (search.lock met).Gives fun answer taken =>
        (Budget.lock value kinds).Reckons m allowed answer (m.weigh taken) := by
    refine ⟨?_, Witness.gives_impossible⟩
    cases met with
    | false =>
      cases safe : search.rootIsSafe <;> simp only [Search.lock, safe]
      · exact Witness.gives_unavailable
      · exact Witness.gives_impossible
    | true =>
      exact Witness.gives_stack.mpr ⟨LockSet.allows_single (within rfl), _, rfl, Nat.zero_le _⟩
  cases l with
  | one => exact ⟨Witness.gives_stack.mpr (free rfl (Nat.zero_le _)), Witness.gives_impossible⟩
  | zero => exact ⟨Witness.gives_impossible, Witness.gives_stack.mpr (free rfl (Nat.zero_le _))⟩
  | key k =>
    refine ⟨(gives_signature_weight reckonable k).mono ?_, Witness.gives_stack.mpr (free rfl ?_)⟩
    · rintro _ ⟨signature, rfl, le⟩
      exact free rfl (le.trans (Nat.le_of_eq (m.bound_pushes _ _ _).symm))
    · exact (Nat.le_of_eq (m.weigh_replicate 1)).trans (Nat.le_of_eq (by cases m <;> rfl))
  | keyHash k =>
    have length := PublicKey.length_pushed permitted
    have atMost := (Budget.keyLength_le context k).2
    have revealed : m.weight (PublicKey.pushed context.scheme k) ≤ m.cost (context.keyLength k) 1 :=
      fits (Nat.lt_of_succ_le (Nat.le_of_eq length)) (by omega)
    have pushed : (Witness.stack [PublicKey.pushed search.scheme k]).Gives
        (· = [PublicKey.pushed context.scheme k]) := Witness.gives_stack.mpr (by
      rw [reckonable.scheme]
      rfl)
    constructor
    · refine ((gives_signature_weight reckonable k).below pushed).mono ?_
      rintro _ ⟨_, _, rfl, rfl, signature, rfl, le⟩
      refine free rfl ?_
      rw [m.bound_pushes, Nat.add_comm (Budget.signatureSize _)]
      exact (Nat.add_le_add revealed le).trans (Nat.le_of_eq (m.cost_add _ _ _ _))
    · refine ((Witness.gives_stack.mpr rfl : Witness.pushZero.Gives (· = [[]])).below pushed).mono ?_
      rintro _ ⟨_, _, rfl, rfl, rfl⟩
      refine free rfl ?_
      rw [m.bound_pushes, Nat.add_comm 1]
      refine (Nat.add_le_add revealed (m.weight_le (Nat.le_refl 1) (by decide))).trans ?_
      exact Nat.le_of_eq (m.cost_add _ _ _ _)
  | after l => exact lock _ _ _ (reckonable.after l)
  | older l => exact lock _ _ _ (reckonable.older l)
  | digest d =>
    constructor
    · simp only [ofLeaf, Search.secret]
      cases search.material.secret d with
      | none => exact Witness.gives_unavailable
      | some secret =>
        refine Witness.gives_stack.mpr (free rfl ?_)
        rw [m.bound_pushes]
        exact fits (by simp) (by decide)
    · refine Witness.gives_stack.mpr (free rfl ?_)
      rw [m.bound_pushes]
      exact fits (by simp) (by decide)
  | multi ks =>
    have ecdsa : context.scheme = .ecdsa := by
      simp only [Context.checkFragment] at permitted
      split at permitted
      · cases permitted
      · cases same : context.scheme
        · rfl
        · contradiction
    have gives := gives_multi_weight (m := m) reckonable ecdsa ks
    exact ⟨gives.sat.mono fun taken le => free rfl (le.trans (Nat.le_of_eq (by cases m <;> rfl))),
      gives.dissat.mono fun taken le => free rfl (le.trans (Nat.le_of_eq (by cases m <;> rfl)))⟩
  | multiA ks =>
    have gives := gives_multiA_weight (m := m) reckonable ks
    exact ⟨gives.sat.mono fun taken le => free rfl (le.trans (Nat.le_of_eq (by cases m <;> rfl))),
      gives.dissat.mono fun taken le => free rfl (le.trans (Nat.le_of_eq (by cases m <;> rfl)))⟩

end Leaf

theorem Satisfaction.exists_select {s : Satisfaction} (found : ∃ items, s.witness = .stack items)
    (selector : List Bytes) : ∃ items, (s.select (.stack selector)).witness = .stack items := by
  obtain ⟨items, found⟩ := found
  exact ⟨_, Witness.below_eq_stack.mpr ⟨items, selector, found, rfl, rfl⟩⟩

/-- What is cheaper takes no more bytes than either. -/
theorem Satisfaction.witnessSize_cheaper_le {a b : Satisfaction} {items other : List Bytes}
    (found : (cheaper a b).witness = .stack items)
    (either : a.witness = .stack other ∨ b.witness = .stack other) :
    witnessSize items ≤ witnessSize other := by
  rcases a with ⟨first | _ | _, _⟩ <;> rcases b with ⟨second | _ | _, _⟩
  case stack.stack =>
    change (if (compare (witnessSize first) (witnessSize second)).isLE then Witness.stack first
      else .stack second) = _ at found
    simp only [Nat.isLE_compare] at found
    split at found <;> cases found <;> rcases either with ⟨⟨⟩⟩ | ⟨⟨⟩⟩ <;> omega
  all_goals cases found <;> rcases either with ⟨⟨⟩⟩ | ⟨⟨⟩⟩ <;> exact Nat.le_refl _

/-- Of the dissatisfactions of an `or_i` one is taken that weighs no more than another, which belongs to
a branch that its type allows to dissatisfy. -/
def Measure.ChoosesOf (m : Measure) (mayX mayY : Bool) (x y : Outcomes) : Prop :=
  let left := x.dissat.select .pushOne
  let right := y.dissat.select .pushZero
  (mayX || mayY) = true → ∀ stack, (left.cheaper right).witness = .stack stack →
    ∃ other, (mayX = true ∧ left.witness = .stack other ∨ mayY = true ∧ right.witness = .stack other) ∧
      m.weigh stack ≤ m.weigh other

/-- So it is wherever an `or_i` can be dissatisfied. -/
def Measure.ChoosesWithin {κ : Type} [PublicKey κ] (m : Measure) (search : Search κ) :
    Typed κ Digest → Prop :=
  Condition.All fun
    | .pair .orI (x : Typed κ Digest) (y : Typed κ Digest) =>
      m.ChoosesOf x.type.soundness.dissatisfiable y.type.soundness.dissatisfiable (search.outcomes x)
        (search.outcomes y)
    | _ => True

section Choices

variable {κ : Type} [PublicKey κ] {m : Measure} {search : Search κ} {context : Context}
  {t : Typed κ Digest}

private theorem Measure.choosesWithin_of_orI (each : ∀ note (x y : Typed κ Digest),
    (.pair note .orI x y : Typed κ Digest) ∈ Traversal.preorder t →
      m.ChoosesOf x.type.soundness.dissatisfiable y.type.soundness.dissatisfiable (search.outcomes x)
        (search.outcomes y)) : m.ChoosesWithin search t := by
  intro x below
  cases x with
  | pair note op x y =>
    cases op with
    | orI => exact each note x y below
    | andV | andB | orB | orD | orC => trivial
  | leaf | wrap | andOr | thresh => trivial

/-- The dissatisfaction that takes the fewest bytes takes no more than that of any branch. -/
theorem Typed.Validated.choosesWithin_bytes (valid : Validated context t) :
    Measure.bytes.ChoosesWithin search t := by
  refine Measure.choosesWithin_of_orI fun note x y below may stack found => ?_
  obtain ⟨validX, validY, _⟩ := (valid.of_mem_preorder below).pair
  rcases Bool.or_eq_true_iff.mp may with mayX | mayY
  · obtain ⟨_, left⟩ := Satisfaction.exists_select (validX.exists_dissat search mayX) [[1]]
    exact ⟨_, .inl ⟨mayX, left⟩, Satisfaction.witnessSize_cheaper_le found (.inl left)⟩
  · obtain ⟨_, right⟩ := Satisfaction.exists_select (validY.exists_dissat search mayY) [[]]
    exact ⟨_, .inr ⟨mayY, right⟩, Satisfaction.witnessSize_cheaper_le found (.inr right)⟩

/-- A dissatisfaction by type is one that the budget reckons with, whatever is measured. -/
theorem Search.DissatisfiesByType.choosesWithin (byType : search.DissatisfiesByType t) :
    m.ChoosesWithin search t := by
  refine Measure.choosesWithin_of_orI fun note x y below may stack found => ?_
  obtain ⟨mayX, same⟩ | ⟨mayY, same⟩ := byType _ below may
  · exact ⟨stack, .inl ⟨mayX, same.symm.trans found⟩, Nat.le_refl _⟩
  · exact ⟨stack, .inr ⟨mayY, same.symm.trans found⟩, Nat.le_refl _⟩

/-- Outside of segwit there is no `or_i` in a condition that relays unaltered, so none is dissatisfied. -/
theorem Typed.dissatisfiesByType_of_isNonMalleable (nonMalleable : t.isNonMalleable context = true)
    (carried : context.limits.scriptSigSize.isSome = true) : search.DissatisfiesByType t := by
  have relay := List.all_eq_true.mp (Bool.and_eq_true_iff.mp nonMalleable).2
  intro x below
  have refused := relay x below
  cases x with
  | pair note op x y =>
    cases op with
    | orI =>
      cases context with
      | legacy | bare => cases refused
      | segwit | tapscript => cases carried
    | andV | andB | orB | orD | orC => trivial
  | leaf | wrap | andOr | thresh => trivial

end Choices

namespace Typed

variable {κ : Type} [PublicKey κ]

/-- An answer on a stack is within the budget of a condition, if the condition may give it. -/
def Reckons (context : Context) (m : Measure) (allowed : LockKinds) (t : Typed κ Digest) : AnswerRel :=
  fun answer taken => (answer = true ∨ t.type.soundness.dissatisfiable = true) →
    (t.exactBudget context).Reckons m allowed answer (m.weigh taken)

namespace Validated

variable {context : Context} {m : Measure} {allowed : LockKinds} {policy : Policy} {note : Attributes}
  {x y z : Typed κ Digest} {ox oy oz : Outcomes}

private theorem promote {a : Bool} (b : Bool) {paths : LockSet} {usage : Option (Usage Nat)} {weight : Nat}
    (reckoned : Reckoned m (if a then allowed else .free) paths usage weight) :
    Reckoned m (if a || b then allowed else .free) paths usage weight := by
  cases a with
  | false => exact reckoned.of_free
  | true => exact reckoned

/-- Two children that ran one after the other. -/
private theorem reckons_both (unmixed : allowed.isMixed = false) {a b : Bool} {taken : List Bytes}
    (run : AnswerRel.Both (x.Reckons context m allowed) (y.Reckons context m allowed) a b taken)
    (first : a = true ∨ x.type.soundness.dissatisfiable = true)
    (second : b = true ∨ y.type.soundness.dissatisfiable = true) (shift : Nat) :
    Reckoned m (if a || b then allowed else .free)
      (((x.exactBudget context).lockPaths.pick a).join ((y.exactBudget context).lockPaths.pick b))
      (Usage.followedBy? ((x.exactBudget context).pick a) ((y.exactBudget context).pick b) shift)
      (m.weigh taken) := by
  obtain ⟨upper, lower, rfl, left, right⟩ := run
  have unmixed' : (if a || b then allowed else LockKinds.free).isMixed = false := by
    split
    · exact unmixed
    · rfl
  rw [m.weigh_append]
  refine (promote b (left first)).followedBy ?_ unmixed' shift
  rw [Bool.or_comm]
  exact promote a (right second)

private theorem reckons_wrap {w : Wrapper} (valid : Validated context (.wrap note w x))
    (below : ox.Gives (x.Reckons context m allowed)) :
    (Outcomes.wrap w ox).Gives (Typed.Reckons context m allowed (.wrap note w x)) := by
  have whole {answer : Bool} {taken : List Bytes} (reckons :
      (answer = true ∨ note.type.soundness.dissatisfiable = true) →
        (Budget.wrap w (x.exactBudget context)).Reckons m allowed answer (m.weigh taken)) :
      Typed.Reckons context m allowed (.wrap note w x) answer taken := by
    intro may
    rw [exactBudget_wrap]
    exact (reckons may).withoutMixedPaths
  have empty : (Witness.pushZero).Gives fun taken =>
      Reckoned m .free .free (some (Usage.emptyElement)) (m.weigh taken) :=
    Witness.gives_stack.mpr ⟨LockSet.allows_free, _, rfl, Nat.le_of_eq (by cases m <;> rfl)⟩
  have may := valid.dissatisfiable_wrap
  cases w with
  | alt | swap | check | zeroNotEqual =>
    exact ⟨below.sat.mono fun taken reckons => whole fun _ => reckons (.inl rfl),
      below.dissat.mono fun taken reckons => whole fun h => reckons (h.imp_right may.symm.trans)⟩
  | verify =>
    exact ⟨below.sat.mono fun taken reckons => whole fun _ => reckons (.inl rfl),
      Witness.gives_impossible⟩
  | nonzero =>
    exact ⟨below.sat.mono fun taken reckons => whole fun _ => reckons (.inl rfl),
      empty.mono fun taken reckons => whole fun _ => reckons⟩
  | dupIf =>
    have pushed : Witness.pushOne.Gives (· = [[1]]) := Witness.gives_stack.mpr rfl
    refine ⟨(below.sat.below pushed).mono ?_, empty.mono fun taken reckons => whole fun _ => reckons⟩
    rintro _ ⟨_, taken, rfl, rfl, reckons⟩
    exact whole fun _ => (reckons (.inl rfl)).select.1

private theorem reckons_pair {op : Connective} (valid : Validated context (.pair note op x y))
    (unmixed : allowed.isMixed = false) (first : ox.Gives (x.Reckons context m allowed))
    (second : oy.Gives (y.Reckons context m allowed)) (chooses : op = .orI →
      m.ChoosesOf x.type.soundness.dissatisfiable y.type.soundness.dissatisfiable ox oy) :
    (Outcomes.pair policy op ox oy).Gives (Typed.Reckons context m allowed (.pair note op x y)) := by
  have whole {answer : Bool} {taken : List Bytes} (reckons :
      (answer = true ∨ note.type.soundness.dissatisfiable = true) →
        (Budget.pair op (x.exactBudget context) (y.exactBudget context)).Reckons m allowed answer
          (m.weigh taken)) :
      Typed.Reckons context m allowed (.pair note op x y) answer taken := by
    intro may
    rw [exactBudget_pair]
    exact (reckons may).withoutMixedPaths
  have both := first.both second
  have may := valid.dissatisfiable_pair
  obtain ⟨mayX, mayY⟩ := valid.dissatisfiable_of_pair
  have no (h : false = true ∨ note.type.soundness.dissatisfiable = true) :=
    may.symm.trans (h.resolve_left Bool.false_ne_true)
  cases op with
  | andV =>
    refine ⟨(both true true).mono fun taken run => whole fun _ => ?_,
      (both true false).mono fun taken _ => whole fun h => absurd (no h) Bool.false_ne_true⟩
    exact reckons_both unmixed run (.inl rfl) (.inl rfl) 0
  | andB =>
    refine ⟨(both true true).mono fun taken run => whole fun _ => ?_,
      (both false false).mono fun taken run => whole fun h => ?_⟩
    · exact reckons_both unmixed run (.inl rfl) (.inl rfl) 1
    · obtain ⟨mayX, mayY⟩ := Bool.and_eq_true_iff.mp (no h)
      exact reckons_both unmixed run (.inr mayX) (.inr mayY) 1
  | orB =>
    have mayX := mayX (by simp)
    have mayY := mayY rfl
    refine ⟨Satisfaction.gives_choose policy ((both false true).mono fun taken run => whole fun _ => ?_)
      ((both true false).mono fun taken run => whole fun _ => ?_),
      (both false false).mono fun taken run => whole fun _ => ?_⟩
    · exact (reckons_both unmixed run (.inr mayX) (.inl rfl) 1).right
    · exact (reckons_both unmixed run (.inl rfl) (.inr mayY) 1).left
    · exact reckons_both unmixed run (.inr mayX) (.inr mayY) 1
  | orD =>
    have mayX := mayX (by simp)
    refine ⟨Satisfaction.gives_choose policy (first.sat.mono fun taken reckons => whole fun _ => ?_)
      ((both false true).mono fun taken run => whole fun _ => ?_),
      (both false false).mono fun taken run => whole fun h => ?_⟩
    · exact (reckons (.inl rfl)).left
    · exact (reckons_both unmixed run (.inr mayX) (.inl rfl) 0).right
    · exact reckons_both unmixed run (.inr mayX) (.inr (no h)) 1
  | orC =>
    have mayX := mayX (by simp)
    refine ⟨Satisfaction.gives_choose policy (first.sat.mono fun taken reckons => whole fun _ => ?_)
      ((both false true).mono fun taken run => whole fun _ => ?_), Witness.gives_impossible⟩
    · exact (reckons (.inl rfl)).left
    · exact (reckons_both unmixed run (.inr mayX) (.inl rfl) 0).right
  | orI =>
    have one : Witness.pushOne.Gives (· = [[1]]) := Witness.gives_stack.mpr rfl
    have zero : Witness.pushZero.Gives (· = [[]]) := Witness.gives_stack.mpr rfl
    have left (answer : Bool) (mayX : answer = true ∨ x.type.soundness.dissatisfiable = true) :
        ((ox.pick answer).select .pushOne).witness.Gives
          (Typed.Reckons context m allowed (.pair note .orI x y) answer) := by
      refine ((first.pick answer).below one).mono ?_
      rintro _ ⟨_, taken, rfl, rfl, reckons⟩
      refine whole fun _ => ?_
      cases answer <;> exact (reckons mayX).select.1.left
    have right (answer : Bool) (mayY : answer = true ∨ y.type.soundness.dissatisfiable = true) :
        ((oy.pick answer).select .pushZero).witness.Gives
          (Typed.Reckons context m allowed (.pair note .orI x y) answer) := by
      refine ((second.pick answer).below zero).mono ?_
      rintro _ ⟨_, taken, rfl, rfl, reckons⟩
      refine whole fun _ => ?_
      cases answer <;> exact (reckons mayY).select.2.right
    refine ⟨Satisfaction.gives_choose policy (left true (.inl rfl)) (right true (.inl rfl)),
      fun stack found may => ?_⟩
    -- Which branch was taken is not known, but its weight is.
    obtain ⟨other, ⟨mayX, found'⟩ | ⟨mayY, found'⟩, le⟩ := chooses rfl (no may) stack found
    · have reckons := left false (.inr mayX) other found' may
      rw [m.weigh_reverse] at reckons ⊢
      exact reckons.mono le
    · have reckons := right false (.inr mayY) other found' may
      rw [m.weigh_reverse] at reckons ⊢
      exact reckons.mono le

private theorem reckons_andOr (valid : Validated context (.andOr note x y z))
    (unmixed : allowed.isMixed = false) (first : ox.Gives (x.Reckons context m allowed))
    (second : oy.Gives (y.Reckons context m allowed)) (third : oz.Gives (z.Reckons context m allowed)) :
    (Outcomes.andOr policy ox oy oz).Gives (Typed.Reckons context m allowed (.andOr note x y z)) := by
  have whole {answer : Bool} {taken : List Bytes} (reckons :
      (answer = true ∨ note.type.soundness.dissatisfiable = true) →
        (Budget.andOr (x.exactBudget context) (y.exactBudget context) (z.exactBudget context)).Reckons
          m allowed answer (m.weigh taken)) :
      Typed.Reckons context m allowed (.andOr note x y z) answer taken := by
    intro may
    rw [exactBudget_andOr]
    exact (reckons may).withoutMixedPaths
  obtain ⟨mayX, mayZ⟩ := valid.dissatisfiable_andOr
  refine ⟨Satisfaction.gives_choose policy
    ((first.both second true true).mono fun taken run => whole fun _ => ?_)
    ((first.both third false true).mono fun taken run => whole fun _ => ?_),
    (first.both third false false).mono fun taken run => whole fun h => ?_⟩
  · exact (reckons_both unmixed run (.inl rfl) (.inl rfl) 0).left
  · exact (reckons_both unmixed run (.inr mayX) (.inl rfl) 0).right
  · exact reckons_both unmixed run (.inr mayX) (.inr (mayZ ▸ h.resolve_left Bool.false_ne_true)) 0

private theorem reckons_thresh {k : Nat} {items : List (Typed κ Digest)} {os : List Outcomes}
    (valid : Validated context (.thresh note k items)) (unmixed : allowed.isMixed = false)
    (below : List.Forall₂ Outcomes.Gives os (items.map (Typed.Reckons context m allowed))) :
    (Outcomes.thresh policy k os).Gives (Typed.Reckons context m allowed (.thresh note k items)) := by
  obtain ⟨each, _⟩ := valid.dissatisfiable_thresh
  have whole {answer : Bool} {taken : List Bytes} (reckons :
      (Budget.threshold k (items.map (exactBudget context))).Reckons m allowed answer (m.weigh taken)) :
      Typed.Reckons context m allowed (.thresh note k items) answer taken := by
    intro _
    rw [exactBudget_thresh]
    exact reckons.withoutMixedPaths
  have children {marks : List Bool} (exact : marks.length = os.length) :
      (Outcomes.gather marks os).Gives fun taken => ∃ parts : List (Bool × List Bytes),
        parts.map Prod.fst = marks ∧ m.weigh taken = (parts.map fun part => m.weigh part.2).sum ∧
        List.Forall₂ (fun x part => x.Reckons m allowed part.1 (m.weigh part.2))
          (items.map (exactBudget context)) parts := by
    refine (Outcomes.gives_gather below exact).mono ?_
    rintro _ ⟨parts, runs, rfl, same⟩
    refine ⟨parts, same, m.weigh_flatMap Prod.snd parts, ?_⟩
    rw [List.forall₂_map_left_iff] at runs ⊢
    exact forall₂_imp_of_mem (fun x member part _ run => run (.inr (each x member))) runs
  constructor
  · intro stack found
    obtain ⟨marks, exact, count, gathered⟩ := Outcomes.threshold_eq_stack found
    obtain ⟨parts, rfl, weight, run⟩ := children exact stack gathered
    rw [List.countP_map, Function.id_comp] at count
    have reckons := Budget.reckons_threshold unmixed
      (List.forall₂_map_right_iff (f := fun part : Bool × List Bytes => (part.1, m.weigh part.2)).mpr run)
    rw [List.countP_map, List.map_map] at reckons
    refine whole ?_
    rw [weight, ← count]
    exact reckons
  · rw [Outcomes.thresh_dissat_witness]
    refine (children List.length_replicate).mono ?_
    rintro taken ⟨parts, none, weight, run⟩
    refine whole ?_
    rw [weight]
    refine Budget.reckons_thresholdNone ?_
    rw [List.forall₂_map_right_iff]
    refine forall₂_imp_of_mem (fun x _ part member run => ?_) run
    have no : part.1 = false :=
      List.eq_of_mem_replicate (none ▸ List.mem_map_of_mem member)
    exact no ▸ run

/-- Whatever is found is within the budget. -/
theorem reckons {search : Search κ} {t : Typed κ Digest} [LawfulPublicKey κ]
    (reckonable : search.Reckonable context m allowed) (valid : Validated context t)
    (chooses : m.ChoosesWithin search t) :
    (search.outcomes t).Gives (Typed.Reckons context m allowed t) := by
  have unmixed := reckonable.unmixed
  induction t using Typed.induct with
  | leaf note l =>
    rw [Search.outcomes_leaf]
    have found := Search.reckons_leaf (m := m) reckonable valid.leaf.1
    have whole {answer : Bool} {taken : List Bytes}
        (reckons : (Budget.ofLeaf context l).Reckons m allowed answer (m.weigh taken)) :
        Typed.Reckons context m allowed (.leaf note l) answer taken := by
      intro _
      rw [exactBudget_leaf]
      exact reckons.withoutMixedPaths
    exact ⟨found.sat.mono fun _ => whole, found.dissat.mono fun _ => whole⟩
  | wrap note w x ih =>
    obtain ⟨_, choosesX⟩ := (Condition.all_wrap ..).mp chooses
    rw [Search.outcomes_wrap]
    exact valid.reckons_wrap (ih valid.wrap.1 choosesX)
  | pair note op x y ihX ihY =>
    obtain ⟨choice, choosesX, choosesY⟩ := (Condition.all_pair ..).mp chooses
    rw [Search.outcomes_pair]
    refine valid.reckons_pair unmixed (ihX valid.pair.1 choosesX) (ihY valid.pair.2.1 choosesY) ?_
    rintro rfl
    exact choice
  | andOr note x y z ihX ihY ihZ =>
    obtain ⟨_, choosesX, choosesY, choosesZ⟩ := (Condition.all_andOr ..).mp chooses
    obtain ⟨validX, validY, validZ, _⟩ := valid.andOr
    rw [Search.outcomes_andOr]
    exact valid.reckons_andOr unmixed (ihX validX choosesX) (ihY validY choosesY) (ihZ validZ choosesZ)
  | thresh note k items ih =>
    obtain ⟨_, choosesBelow⟩ := (Condition.all_thresh ..).mp chooses
    have validBelow := valid.thresh.1
    rw [Search.outcomes_thresh]
    refine valid.reckons_thresh unmixed ?_
    rw [List.forall₂_map_left_iff, List.forall₂_map_right_iff, List.forall₂_same]
    exact fun x member => ih x member (validBelow x member) (choosesBelow x member)

end Validated

end Typed

end LockScript
