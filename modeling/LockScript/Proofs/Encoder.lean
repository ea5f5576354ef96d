import LockScript.Proofs.Attributes
import LockScript.Proofs.Builder
import LockScript.Proofs.StackDepth

/-! # Encoding in place

A condition is encoded in one loop over its nodes, children first. The bytes of every node go into one
array, from which its parent moves them into its own template, leaving nothing behind. So the loop is
right only if every child is where its parent looks for it, and is still there when it does: each position
is used once. An index out of range would stop the loop with no result at all.

What the loop arrives at is the recursion that puts the encodings of the children into the template of each
fragment. The bytes are read back as the instructions of these templates, and their conditionals are
nested properly.
-/

namespace LockScript

namespace Builder

variable {κ : Type} [PublicKey κ] (context : Context)

/-! ## Templates -/

/-- Writes a push of a key, in the serialization that its context checks. -/
def pushKey (builder : Builder) (key : κ) : Builder :=
  builder.pushSlice (PublicKey.pushed context.scheme key)

/-- Writes the check of a key in a chain of checks, which the first one starts. -/
def pushCheck (builder : Builder) (key : κ × Nat) : Builder :=
  (pushKey context builder key.1).pushOpcode (if key.2 = 0 then .checkSig else .checkSigAdd)

/-- Writes a leaf. -/
def ofLeaf : Leaf κ Digest → Builder
  | .one => empty.pushCode 0x51
  | .zero => empty.pushCode 0
  | .key k => pushKey context empty k
  | .keyHash k => (((empty.pushOpcode .dup).pushOpcode .hash160).pushSlice
      (PublicKey.hash context.scheme k)).pushOpcode .equalVerify
  | .after lock => (empty.pushInt lock.value).pushOpcode .checkLockTimeVerify
  | .older lock => (empty.pushInt lock.value).pushOpcode .checkSequenceVerify
  | .digest d => (((((empty.pushOpcode .size).pushInt 32).pushOpcode .equalVerify).pushOpcode
      (Script.hashOpcode d.kind)).pushSlice d.bytes).pushOpcode .equal
  | .multi ks => ((ks.items.foldl (pushKey context) (empty.pushCount ks.k)).pushCount ks.n).pushOpcode
      .checkMultiSig
  | .multiA ks => ((ks.items.zipIdx.foldl (pushCheck context) empty).pushCount ks.k).pushOpcode .numEqual

/-- Writes a wrapper around a child. -/
def wrap : Wrapper → Bytes → Builder
  | .alt, x => ((empty.pushOpcode .toAltStack).append x).pushOpcode .fromAltStack
  | .swap, x => (empty.pushOpcode .swap).append x
  | .check, x => (empty.append x).pushOpcode .checkSig
  | .dupIf, x => (((empty.pushOpcode .dup).pushOpcode .if).append x).pushOpcode .endIf
  | .verify, x => (empty.append x).pushVerify
  | .nonzero, x =>
    ((((empty.pushOpcode .size).pushOpcode .zeroNotEqual).pushOpcode .if).append x).pushOpcode .endIf
  | .zeroNotEqual, x => (empty.append x).pushOpcode .zeroNotEqual

/-- Writes a connective with its children. -/
def pair : Connective → Bytes → Bytes → Builder
  | .andV, x, y => (empty.append x).append y
  | .andB, x, y => ((empty.append x).append y).pushOpcode .boolAnd
  | .orB, x, y => ((empty.append x).append y).pushOpcode .boolOr
  | .orD, x, y =>
    ((((empty.append x).pushOpcode .ifDup).pushOpcode .notIf).append y).pushOpcode .endIf
  | .orC, x, y => (((empty.append x).pushOpcode .notIf).append y).pushOpcode .endIf
  | .orI, x, y =>
    ((((empty.pushOpcode .if).append x).pushOpcode .else).append y).pushOpcode .endIf

/-- Writes an `andor` with its children, of which the third comes before the second. -/
def andOr (x y z : Bytes) : Builder :=
  (((((empty.append x).pushOpcode .notIf).append z).pushOpcode .else).append y).pushOpcode .endIf

/-- Appends a further child of a `thresh`, and adds its result. -/
def addChild (builder : Builder) (x : Bytes) : Builder :=
  (builder.append x).pushOpcode .add

/-! ## What the templates write -/

@[simp] theorem bytes_pushKey (builder : Builder) (key : κ) :
    (pushKey context builder key).bytes = builder.bytes ++ Script.bytes [Script.pushKey context key] :=
  bytes_pushSlice builder _

theorem bytes_foldl_pushKey (builder : Builder) (keys : List κ) :
    (keys.foldl (pushKey context) builder).bytes =
      builder.bytes ++ Script.bytes (keys.map (Script.pushKey context)) := by
  induction keys generalizing builder with
  | nil => simp
  | cons key rest ih => simp [ih]

theorem bytes_foldl_pushCheck (keys : List κ) :
    (keys.zipIdx.foldl (pushCheck context) empty).bytes = Script.bytes (Script.checkSigChain context keys) := by
  have later (builder : Builder) (keys : List κ) (place : Nat) :
      ((keys.zipIdx (place + 1)).foldl (pushCheck context) builder).bytes = builder.bytes ++
        Script.bytes (keys.flatMap fun key => [Script.pushKey context key, .op .checkSigAdd]) := by
    induction keys generalizing builder place with
    | nil => simp
    | cons key rest ih => simp [ih, pushCheck]
  cases keys with
  | nil => rfl
  | cons first rest =>
    rw [List.zipIdx_cons, List.foldl_cons, Nat.zero_add, later _ _ 0]
    simp [pushCheck, Script.checkSigChain]

theorem bytes_ofLeaf (l : Leaf κ Digest) : (ofLeaf context l).bytes = (Script.ofLeaf context l).bytes := by
  have counts {cap : Option Nat} {most : Nat} (ks : Threshold κ cap) (bound : most ∈ cap)
      (few : most < 2 ^ 63) :
      ks.k < 2 ^ 63 ∧ ks.n < 2 ^ 63 :=
    ⟨Nat.lt_of_le_of_lt (Nat.le_trans ks.k_le (ks.capped most bound)) few,
      Nat.lt_of_le_of_lt (ks.capped most bound) few⟩
  cases l with
  | one | zero => rfl
  | key k => simp [ofLeaf, Script.ofLeaf]
  | keyHash k => simp [ofLeaf, Script.ofLeaf]
  | after lock => simp [ofLeaf, Script.ofLeaf]
  | older lock => simp [ofLeaf, Script.ofLeaf]
  | digest d =>
    have width (builder : Builder) :
        (builder.pushInt 32).bytes = builder.bytes ++ Script.bytes [.ofNumber 32] := bytes_pushInt builder 32
    simp [ofLeaf, Script.ofLeaf, width]
  | multi ks =>
    obtain ⟨few, few'⟩ := counts ks rfl (by decide)
    simp [ofLeaf, Script.ofLeaf, bytes_foldl_pushKey, bytes_pushCount _ few, bytes_pushCount _ few']
  | multiA ks =>
    obtain ⟨few, -⟩ := counts ks rfl (by decide)
    simp [ofLeaf, Script.ofLeaf, bytes_foldl_pushCheck, bytes_pushCount _ few]

theorem bytes_wrap (w : Wrapper) {x : Script} (short : x.IsShort) :
    (wrap w x.bytes).bytes = (Script.wrap w x).bytes := by
  cases w with
  | verify => exact bytes_pushVerify_ofBytes short
  | _ => simp [wrap, Script.wrap]

theorem bytes_pair (op : Connective) (x y : Script) :
    (pair op x.bytes y.bytes).bytes = (Script.pair op x y).bytes := by
  cases op <;> simp [pair, Script.pair]

theorem bytes_andOr (x y z : Script) :
    (andOr x.bytes y.bytes z.bytes).bytes = (Script.andOr x y z).bytes := by
  simp [andOr, Script.andOr]

theorem bytes_foldl_addChild (builder : Builder) (items : List Script) :
    ((items.map Script.bytes).foldl addChild builder).bytes =
      builder.bytes ++ Script.bytes (items.flatMap fun x => x ++ [.op .add]) := by
  induction items generalizing builder with
  | nil => simp
  | cons x rest ih => simp [ih, addChild]

/-! ## The loop -/

/-- What the loop does to the array of encodings; it stops at an index out of range. -/
abbrev Loop := StateT (Array Bytes) Option

/-- Moves the bytes of a child out of the array, in which nothing is left in their place. -/
def takeChild (positions : List Nat) (n : Nat) : Loop Bytes := do
  let encoded ← get
  let position ← positions[n]?
  let bytes ← encoded[position]?
  set (encoded.setIfInBounds position [])
  return bytes

variable {α : Type}

/-- Writes a fragment; the children are taken when their turn comes. -/
def ofFragment {σ : Type} (child : Nat → Loop Bytes) : Fragment κ Digest σ → Loop Builder
  | .leaf l => return ofLeaf context l
  | .wrap w _ => return wrap w (← child 0)
  | .pair op _ _ => do
    let x ← child 0
    let y ← child 1
    return pair op x y
  | .andOr _ _ _ => do
    let x ← child 0
    let z ← child 2
    let y ← child 1
    return andOr x y z
  | .thresh k items => do
    let first ← child 0
    let builder ← (List.range' 1 (items.length - 1)).foldlM
      (fun builder n => return builder.addChild (← child n)) (empty.append first)
    return (builder.pushCount k).pushOpcode .equal

/-- Encodes the next node behind the others. -/
def encodeItem (encoded : Array Bytes) (item : Traversal.PostorderItem (Condition κ Digest α)) :
    Option (Array Bytes) := do
  let (builder, rest) ← (ofFragment context (takeChild item.childIndices) item.node.fragment).run encoded
  return rest.push builder.bytes

end Builder

/-- The bytes of a condition: those of the last node that the loop encodes. -/
def Condition.encode? {κ α : Type} [PublicKey κ] (context : Context) (t : Condition κ Digest α) :
    Option Bytes := do
  let encoded ← (Traversal.postorder t).foldlM (Builder.encodeItem context) #[]
  return encoded.back?.getD []

namespace Builder

variable {κ α σ : Type} [PublicKey κ] (context : Context)

/-! ## Each child is taken once -/

theorem run_takeChild {positions : List Nat} {encoded : Array Bytes} {n position : Nat} {bytes : Bytes}
    (place : positions[n]? = some position) (held : encoded[position]? = some bytes) :
    (takeChild positions n).run encoded = some (bytes, encoded.setIfInBounds position []) := by
  simp [takeChild, place, held]

/-- Children that are taken one by one, each of them once, are what the array held before. Nothing else in
it changes. -/
theorem run_mapM_takeChild {positions : List Nat} (distinct : positions.Nodup) {below : List Bytes}
    {order : List Nat} (once : order.Nodup) {encoded : Array Bytes}
    (held : ∀ n ∈ order, ∃ position, positions[n]? = some position ∧
      encoded[position]? = some (below.getD n [])) :
    ∃ rest, (order.mapM (takeChild positions)).run encoded = some (order.map (below.getD · []), rest) ∧
      rest.size = encoded.size ∧ ∀ p ∉ positions, rest[p]? = encoded[p]? := by
  induction order generalizing encoded with
  | nil => exact ⟨encoded, rfl, rfl, fun _ _ => rfl⟩
  | cons n order ih =>
    obtain ⟨⟨position, place, bytes⟩, others⟩ := List.forall_mem_cons.mp held
    obtain ⟨notAgain, once⟩ := List.nodup_cons.mp once
    have still : ∀ m ∈ order, ∃ position', positions[m]? = some position' ∧
        (encoded.setIfInBounds position [])[position']? = some (below.getD m []) := by
      intro m member
      obtain ⟨position', place', bytes'⟩ := others m member
      have apart : position ≠ position' := by
        rintro rfl
        obtain ⟨within, -⟩ := List.getElem?_eq_some_iff.mp place
        have same := (List.getElem?_inj within distinct).mp (place.trans place'.symm)
        exact notAgain (same ▸ member)
      exact ⟨position', place', by rw [Array.getElem?_setIfInBounds_ne apart, bytes']⟩
    obtain ⟨rest, ran, size, kept⟩ := ih once still
    refine ⟨rest, ?_, by rw [size, Array.size_setIfInBounds], fun p outside => ?_⟩
    · rw [List.mapM_cons, StateT.run_bind, run_takeChild place bytes]
      simp [ran]
    · have apart : position ≠ p := by
        rintro rfl
        exact outside (List.mem_of_getElem? place)
      rw [kept p outside, Array.getElem?_setIfInBounds_ne apart]

/-- The places of the children in the order in which a template takes them. -/
def order : Fragment κ Digest σ → List Nat
  | .leaf _ => []
  | .wrap _ _ => [0]
  | .pair _ _ _ => [0, 1]
  | .andOr _ _ _ => [0, 2, 1]
  | .thresh _ items => 0 :: List.range' 1 (items.length - 1)

/-- Writes a fragment with all its children at hand, in the order in which its template takes them. -/
def write (fragment : Fragment κ Digest σ) (taken : List Bytes) : Builder :=
  match fragment with
  | .leaf l => ofLeaf context l
  | .wrap w _ => wrap w (taken.getD 0 [])
  | .pair op _ _ => pair op (taken.getD 0 []) (taken.getD 1 [])
  | .andOr _ _ _ => andOr (taken.getD 0 []) (taken.getD 2 []) (taken.getD 1 [])
  | .thresh k _ =>
    ((taken.tail.foldl addChild (empty.append (taken.getD 0 []))).pushCount k).pushOpcode .equal

/-- A loop that takes and writes in turn may as well take everything first. -/
theorem foldlM_take {ρ τ ω : Type} (take : ρ → Loop τ) (next : ω → τ → ω) (items : List ρ)
    (start : ω) :
    items.foldlM (fun state x => do return next state (← take x)) start =
      items.mapM take >>= fun taken => pure (taken.foldl next start) := by
  induction items generalizing start with
  | nil => simp
  | cons x rest ih =>
    rw [List.foldlM_cons, List.mapM_cons]
    simp only [bind_assoc, pure_bind, ih, List.foldl_cons]

theorem ofFragment_eq (child : Nat → Loop Bytes) (fragment : Fragment κ Digest σ) :
    ofFragment context child fragment =
      (order fragment).mapM child >>= fun taken => pure (write context fragment taken) := by
  cases fragment with
  | leaf l => simp [ofFragment, order, write]
  | wrap w x => simp [ofFragment, order, write]
  | pair op x y => simp [ofFragment, order, write]
  | andOr x y z => simp [ofFragment, order, write]
  | thresh k items =>
    simp only [ofFragment, order, write, foldlM_take, List.mapM_cons, bind_assoc, pure_bind, List.tail_cons,
      List.getD_cons_zero]

/-- What a fragment needs to be encoded: a `thresh` has children, and a number that stays positive when it
is taken for a signed one of 64 bits. -/
def Writable : Fragment κ Digest σ → Prop
  | .thresh k items => items ≠ [] ∧ k < 2 ^ 63
  | .leaf _ | .wrap _ _ | .pair _ _ _ | .andOr _ _ _ => True

omit [PublicKey κ] in
theorem order_thresh (k : Nat) {items : List σ} (some : items ≠ []) :
    order (.thresh k items : Fragment κ Digest σ) = List.range items.length := by
  obtain ⟨first, rest, rfl⟩ := List.exists_cons_of_ne_nil some
  rw [order, List.length_cons, Nat.add_sub_cancel, List.range_eq_range', List.range'_succ]

omit [PublicKey κ] in
/-- Every child is taken once, and all of them are. -/
theorem order_perm {fragment : Fragment κ Digest σ} (writable : Writable fragment) :
    (order fragment).Perm (List.range fragment.children.length) := by
  cases fragment with
  | leaf l | wrap w x | pair op x y => exact .refl _
  | andOr x y z => exact .cons 0 (.swap 1 2 [])
  | thresh k items => rw [order_thresh k writable.1, Fragment.children]

/-- What is written over the encodings of children is the encoding of the template over their scripts. -/
theorem bytes_write {fragment : Fragment κ Digest σ} (writable : Writable fragment) {scripts : List Script}
    (count : scripts.length = fragment.children.length) (short : ∀ x ∈ scripts, x.IsShort) :
    (write context fragment ((order fragment).map ((scripts.map Script.bytes).getD · []))).bytes =
      (Script.ofFragment context (fragment.withChildren scripts)).bytes := by
  cases fragment with
  | leaf l => exact bytes_ofLeaf context l
  | wrap w x =>
    obtain ⟨a, rfl⟩ := List.length_eq_one_iff.mp count
    exact bytes_wrap w (short a List.mem_cons_self)
  | pair op x y =>
    obtain ⟨a, b, rfl⟩ := List.length_eq_two.mp count
    exact bytes_pair op a b
  | andOr x y z =>
    obtain ⟨a, b, c, rfl⟩ := List.length_eq_three.mp count
    exact bytes_andOr a b c
  | thresh k items =>
    obtain ⟨some, few⟩ := writable
    cases scripts with
    | nil => exact absurd (List.length_eq_zero_iff.mp count.symm) some
    | cons a rest =>
      have all : (order (.thresh k items : Fragment κ Digest σ)).map
          (((a :: rest).map Script.bytes).getD · []) = (a :: rest).map Script.bytes := by
        have same : items.length = ((a :: rest).map Script.bytes).length := by
          rw [List.length_map]
          exact count.symm
        rw [order_thresh k some, same]
        exact List.ext_getElem (by simp) (by simp +contextual)
      rw [all]
      simp [write, Script.ofFragment, Fragment.withChildren, Script.threshold, bytes_pushCount _ few,
        bytes_foldl_addChild]

/-- Over children in the array a fragment is written as its template is, and nothing else in the array
changes. -/
theorem run_ofFragment {fragment : Fragment κ Digest σ} (writable : Writable fragment)
    {scripts : List Script} (count : scripts.length = fragment.children.length)
    (short : ∀ x ∈ scripts, x.IsShort) {positions : List Nat} (distinct : positions.Nodup)
    {encoded : Array Bytes} (held : positions.map (encoded[·]?) = scripts.map fun x => some x.bytes) :
    ∃ builder rest, (ofFragment context (takeChild positions) fragment).run encoded = some (builder, rest) ∧
      builder.bytes = (Script.ofFragment context (fragment.withChildren scripts)).bytes ∧
      rest.size = encoded.size ∧ ∀ p ∉ positions, rest[p]? = encoded[p]? := by
  have all := order_perm writable
  have located : ∀ n ∈ order fragment, ∃ position, positions[n]? = some position ∧
      encoded[position]? = some ((scripts.map Script.bytes).getD n []) := by
    intro n member
    have within : n < scripts.length := by rw [count]; exact List.mem_range.mp (all.mem_iff.mp member)
    have same := congrArg (·[n]?) held
    simp only [List.getElem?_map, List.getElem?_eq_getElem within, Option.map_some] at same
    obtain ⟨position, place, bytes⟩ := Option.map_eq_some_iff.mp same
    exact ⟨position, place, by rw [bytes]; simp [within]⟩
  obtain ⟨rest, ran, size, kept⟩ := run_mapM_takeChild distinct (all.nodup_iff.mpr List.nodup_range) located
  exact ⟨_, rest, by rw [ofFragment_eq, StateT.run_bind, ran]; rfl,
    bytes_write context writable count short, size, kept⟩

end Builder

namespace Traversal

variable {σ : Type} [Branching σ]

/-- The positions of trees are among those of their nodes. -/
theorem le_of_mem_positionsOf {trees : List σ} {index p : Nat} (member : p ∈ positionsOf trees index) :
    index ≤ p ∧ p < index + (nodesOf trees).length := by
  induction trees generalizing index with
  | nil => cases member
  | cons tree rest ih =>
    rw [nodesOf, List.length_append, List.length_cons]
    obtain rfl | member := List.mem_cons.mp member
    · omega
    · have later := ih member
      omega

theorem nodup_positionsOf (trees : List σ) (index : Nat) : (positionsOf trees index).Nodup := by
  induction trees generalizing index with
  | nil => exact List.nodup_nil
  | cons tree rest ih =>
    refine List.nodup_cons.mpr ⟨fun member => ?_, ih _⟩
    have later := (le_of_mem_positionsOf member).1
    omega

end Traversal

namespace Builder

variable {κ α : Type} [PublicKey κ] (context : Context)

open Traversal

/-- The loop has encoded listed trees behind what stood in the array before: that is unchanged, and the
encodings of the trees are at their positions. -/
structure Encoded (trees : List (Condition κ Digest α)) (before after : Array Bytes) : Prop where
  size : after.size = before.size + (nodesOf trees).length
  kept : ∀ p < before.size, after[p]? = before[p]?
  found : (positionsOf trees before.size).map (after[·]?) = trees.map fun t => some (t.script context).bytes

theorem isShort_of_writable {t : Condition κ Digest α} (ready : t.All Writable) :
    (t.script context).IsShort := by
  refine t.isShort_script context fun x member => ?_
  have writable := ready x member
  cases shape : x.fragment with
  | thresh k items =>
    rw [shape] at writable
    exact Nat.lt_trans writable.2 (by decide)
  | _ => trivial

/-- One round of the loop: once its children are encoded, a node is. -/
theorem Encoded.encodeItem {tree : Condition κ Digest α} (ready : tree.All Writable)
    {before below : Array Bytes} (done : Encoded context tree.children before below) :
    ∃ after, encodeItem context below
        ⟨tree, below.size, positionsOf tree.children before.size⟩ = some after ∧
      Encoded context [tree] before after := by
  obtain ⟨writable, others⟩ := (Condition.all_iff tree).mp ready
  obtain ⟨builder, rest, ran, bytes, size, kept⟩ := run_ofFragment context writable
    (List.length_map (Condition.script context))
    (List.forall_mem_map.mpr fun x member => isShort_of_writable context (others x member))
    (nodup_positionsOf tree.children before.size)
    (by rw [done.found, List.map_map]; rfl)
  have script : builder.bytes = (tree.script context).bytes := by
    rw [bytes, Condition.script_eq, ← Fragment.withChildren_map]
  refine ⟨rest.push builder.bytes, by simp [Builder.encodeItem, ran], ?_, fun p early => ?_, ?_⟩
  · rw [Array.size_push, size, done.size, length_nodesOf_singleton, Nat.add_assoc]
    rfl
  · have within : p < rest.size := by rw [size, done.size]; omega
    have outside : p ∉ positionsOf tree.children before.size :=
      fun member => Nat.not_le_of_lt early (le_of_mem_positionsOf member).1
    rw [Array.getElem?_push_lt within, ← Array.getElem?_eq_getElem within, kept p outside, done.kept p early]
  · have place : positionsOf [tree] before.size = [rest.size] := by
      rw [size, done.size]
      rfl
    rw [place, List.map_singleton, Array.getElem?_push_size, script]
    rfl

theorem Encoded.cons {tree : Condition κ Digest α} {trees : List (Condition κ Digest α)}
    {before middle after : Array Bytes} (first : Encoded context [tree] before middle)
    (others : Encoded context trees middle after) : Encoded context (tree :: trees) before after := by
  have place : middle.size = before.size + (nodesOf tree.children).length + 1 := by
    rw [first.size, length_nodesOf_singleton, Nat.add_assoc]
    rfl
  refine ⟨?_, fun p early => ?_, ?_⟩
  · rw [others.size, place, nodesOf, List.length_append, List.length_cons, Nat.add_assoc, Nat.add_assoc,
      Nat.add_comm 1]
    rfl
  · rw [others.kept p (by omega), first.kept p early]
  · have here : after[before.size + (nodesOf tree.children).length]? = some (tree.script context).bytes := by
      rw [others.kept _ (by omega)]
      exact (List.cons.inj first.found).1
    have later := others.found
    rw [place] at later
    exact congrArg₂ List.cons here later

/-- The loop encodes listed trees. -/
theorem exists_encoded {trees : List (Condition κ Digest α)} (ready : ∀ t ∈ trees, t.All Writable)
    (before : Array Bytes) :
    ∃ after, (itemsOf trees before.size).foldlM (Builder.encodeItem context) before = some after ∧
      Encoded context trees before after := by
  induction trees using nodesOf.induct generalizing before with
  | case1 =>
    rw [itemsOf]
    exact ⟨before, rfl, by rw [nodesOf]; rfl, fun _ _ => rfl, rfl⟩
  | case2 tree rest below ih =>
    obtain ⟨readyTree, readyRest⟩ := List.forall_mem_cons.mp ready
    obtain ⟨middle, ran, done⟩ := below ((Condition.all_iff tree).mp readyTree).2 before
    obtain ⟨next, step, encoded⟩ := done.encodeItem context readyTree
    obtain ⟨after, ran', done'⟩ := ih readyRest next
    refine ⟨after, ?_, encoded.cons context done'⟩
    have place : middle.size = before.size + (nodesOf (Branching.children tree)).length := done.size
    have place' : next.size = middle.size + 1 := by
      rw [encoded.size, length_nodesOf_singleton, ← Nat.add_assoc, place]
    have round : Builder.encodeItem context middle
        ⟨tree, middle.size, positionsOf (Branching.children tree) before.size⟩ = some next := step
    rw [itemsOf, List.foldlM_append, ran, ← place, ← place']
    simp only [bind, Option.bind_some, List.foldlM_cons, round]
    exact ran'

/-- The encoding of the root is what the loop ends with. -/
theorem encode?_eq {t : Condition κ Digest α} (ready : t.All Writable) :
    t.encode? context = some (t.script context).bytes := by
  obtain ⟨after, ran, done⟩ := exists_encoded context (List.forall_mem_singleton.mpr ready) #[]
  have last : after.back? = some (t.script context).bytes := by
    rw [Array.back?, done.size, length_nodesOf_singleton]
    exact (List.cons.inj done.found).1
  rw [Condition.encode?, postorder_eq]
  have ran : (itemsOf [t] 0).foldlM (Builder.encodeItem context) #[] = some after := ran
  rw [ran]
  simp [last]

end Builder

/-! ## The recursive template -/

namespace Condition

variable {κ α : Type} [PublicKey κ] (context : Context)

mutual

/-- The script of a condition, by recursion: the template of its fragment over the scripts of its
children. -/
def template : Condition κ Digest α → Script
  | leaf _ l => Script.ofLeaf context l
  | wrap _ w x => Script.wrap w (template x)
  | pair _ op x y => Script.pair op (template x) (template y)
  | andOr _ x y z => Script.andOr (template x) (template y) (template z)
  | thresh _ k items => Script.threshold k (templates items)

/-- The scripts of listed conditions. -/
def templates : List (Condition κ Digest α) → List Script
  | [] => []
  | x :: rest => template x :: templates rest

end

theorem templates_eq_map (items : List (Condition κ Digest α)) :
    templates context items = items.map (template context) := by
  induction items with
  | nil => rfl
  | cons x rest ih => rw [templates, ih, List.map_cons]

theorem script_eq_template (t : Condition κ Digest α) : t.script context = t.template context := by
  induction t using induct with
  | leaf _ l => rw [script_leaf, template]
  | wrap _ w x ih => rw [script_wrap, template, ih]
  | pair _ op x y ihX ihY => rw [script_pair, template, ihX, ihY]
  | andOr _ x y z ihX ihY ihZ => rw [script_andOr, template, ihX, ihY, ihZ]
  | thresh _ k items ih => rw [script_thresh, template, templates_eq_map, List.map_congr_left ih]

end Condition

namespace Typed

variable {κ : Type} [PublicKey κ] {context : Context}

theorem Validated.writable {t : Typed κ Digest} (valid : Validated context t)
    (counts : t.CountsBelow (2 ^ 63)) : t.All Builder.Writable := by
  intro x member
  have few := counts x member
  have inRange := (valid.of_mem_preorder member).node.2.2
  cases shape : x.fragment with
  | thresh k items =>
    rw [shape] at few
    obtain ⟨positive, enough⟩ := inRange k items shape
    exact ⟨List.ne_nil_of_length_pos (Nat.lt_of_lt_of_le positive enough), few⟩
  | _ => trivial

/-- Encoding is the recursive template. For every typed condition that can be made, whether or not it has
subtrees in common, the loop runs through, and what it returns are the bytes of the recursive template,
in which a `v:` replaces the last instruction of its child if that is one of the four opcodes with a
verifying form. The last opcode that is read back from these bytes is the last instruction of the template,
and none if that is a push of data; the bytes are read as just the instructions of the template; and in
these every conditional has an end of its own, and at most one `ELSE`. A list in memory has fewer than 2^63
items, so no count exceeds that. -/
theorem Reachable.encode_eq_template {t : Typed κ Digest} (made : Reachable context t)
    (counts : t.CountsBelow (2 ^ 63)) :
    t.encode? context = some (t.template context).bytes ∧
      t.script context = t.template context ∧
      (Builder.ofBytes (t.template context).bytes).lastOpcode =
        (t.template context).getLast?.bind Instruction.code? ∧
      (Builder.ofBytes (t.template context).bytes).pushVerify.bytes = (t.template context).verified.bytes ∧
      Script.parse? (t.template context).bytes = some (t.template context) ∧
      (t.template context).Bracketed := by
  have ready := made.validated.writable counts
  have short := Builder.isShort_of_writable context ready
  have bracketed := Script.bracketed_script context t
  have encoded := Builder.encode?_eq context ready
  have same := t.script_eq_template context
  rw [same] at short bracketed encoded
  exact ⟨encoded, same, Builder.lastOpcode_ofBytes short, Builder.bytes_pushVerify_ofBytes short,
    Script.parse?_bytes short, bracketed⟩

/-- Of `and_v(v:pk(A),pk(A))` the first check verifies, and the second one does not. -/
theorem encode_eq_template_sharedKey :
    ∃ key : PointKey, Reachable .segwit (sharedKey key) ∧ (sharedKey key).CountsBelow (2 ^ 63) ∧
      (sharedKey key).encode? .segwit =
        some (0x21 :: key.bytes ++ 0xad :: 0x21 :: key.bytes ++ [0xac]) := by
  let key : PointKey := ⟨false, Vector.replicate 32 1⟩
  have single : Validated .segwit (pk .segwit key : Typed PointKey Digest) := validated_pk rfl
  have made : Reachable .segwit (sharedKey key) :=
    (validated_ofFragment rfl (List.forall_mem_cons.mpr
      ⟨validated_ofFragment rfl (List.forall_mem_singleton.mpr single),
        List.forall_mem_singleton.mpr single⟩)).reachable
  have counts : (sharedKey key).CountsBelow (2 ^ 63) := by
    simp [sharedKey, pk, ofFragment, Condition.node]
  exact ⟨key, made, counts, (made.encode_eq_template counts).1.trans rfl⟩

end Typed

end LockScript
