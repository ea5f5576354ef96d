import Mathlib.Data.List.Nodup
import LockScript.Proofs.SatisfactionSize

/-! # Keys in scripts

A script names a key in one of two ways: it pushes the key, or it pushes the hash of a key that the
witness has to open. Whoever reads a script from left to right can tell these pushes from those of
numbers and digests. Read so, the script of a condition names the keys of its fragments one after the
other, where the third child of an `andor` comes before the second. The keys of a condition are listed
with all children in their own order instead, so the two orders agree if no `andor` has keys in both
places, and only then unless keys repeat.
-/

namespace LockScript

/-- A key as a script names it. -/
inductive KeyPush where
  | key (bytes : Bytes)
  /-- The hash of a key, which the witness has to open. -/
  | hash (digest : Bytes)
  deriving DecidableEq

/-- Whether a serialized key is the one that a script names. -/
def KeyPush.Shows : KeyPush → Bytes → Prop
  | key bytes, shown => bytes = shown
  | hash digest, shown => digest = HashKind.hash .hash160 shown

/-- Whether an opcode hashes the top of the stack. -/
def Opcode.isHash : Opcode → Bool
  | ripemd160 | sha256 | hash160 | hash256 => true
  | _ => false

/-- What the instruction before tells of a push. -/
inductive PushRole where
  | plain
  /-- Behind a `DUP`, of which the second copy may be hashed. -/
  | copied
  /-- Behind `DUP HASH160`: the hash of a key. -/
  | keyHash
  /-- Behind the hash of a secret: the digest to compare it with. -/
  | digest

namespace PushRole

/-- The role of a push behind one more instruction. -/
def next : PushRole → Instruction → PushRole
  | _, .op .dup => copied
  | copied, .op .hash160 => keyHash
  | _, .op opcode => if opcode.isHash then digest else plain
  | _, .push _ | _, .small _ => plain

/-- The key that an instruction names in its place. Numbers are pushed in fewer bytes than keys. -/
def keys : PushRole → Instruction → List KeyPush
  | keyHash, .push data => [.hash data]
  | digest, .push _ => []
  | _, .push data => if data.length < 32 then [] else [.key data]
  | _, .small _ | _, .op _ => []

end PushRole

namespace Script

/-- The keys that a script names, read left to right. -/
def keysFrom : PushRole → Script → List KeyPush
  | _, [] => []
  | role, first :: rest => role.keys first ++ keysFrom (role.next first) rest

/-- The keys and key hashes that a script pushes, read left to right. -/
def keyPushes (script : Script) : List KeyPush :=
  script.keysFrom .plain

theorem keysFrom_append (role : PushRole) (first second : Script) :
    (first ++ second).keysFrom role =
      first.keysFrom role ++ second.keysFrom (first.foldl PushRole.next role) := by
  induction first generalizing role with
  | nil => rfl
  | cons instruction rest ih =>
    rw [List.cons_append, keysFrom, keysFrom, ih, List.foldl_cons, List.append_assoc]

/-- The script names these keys, and what it ends with has no bearing on a push behind it. -/
structure Names (script : Script) (keys : List KeyPush) : Prop where
  keyPushes_eq : script.keyPushes = keys
  settled : script.foldl PushRole.next .plain = .plain

namespace Names

variable {first second : Script} {keys keys' : List KeyPush}

theorem append (names : Names first keys) (names' : Names second keys') :
    Names (first ++ second) (keys ++ keys') where
  keyPushes_eq := by
    rw [keyPushes, keysFrom_append, names.settled]
    exact congrArg₂ (· ++ ·) names.keyPushes_eq names'.keyPushes_eq
  settled := by rw [List.foldl_append, names.settled, names'.settled]

theorem nil : Names [] [] :=
  ⟨rfl, rfl⟩

/-- Appending instructions that name no key. -/
theorem concat (names : Names first keys) (silent : Names second []) : Names (first ++ second) keys := by
  have both := names.append silent
  rwa [List.append_nil] at both

theorem flatMap {α : Type} {f : α → Script} {g : α → List KeyPush} {items : List α}
    (each : ∀ x ∈ items, Names (f x) (g x)) : Names (items.flatMap f) (items.flatMap g) := by
  induction items with
  | nil => exact nil
  | cons x rest ih =>
    obtain ⟨head, others⟩ := List.forall_mem_cons.mp each
    rw [List.flatMap_cons, List.flatMap_cons]
    exact head.append (ih others)

theorem op (opcode : Opcode) (plain : opcode ≠ .dup ∧ opcode.isHash = false) :
    Names [.op opcode] [] where
  keyPushes_eq := rfl
  settled := by
    obtain ⟨single, unhashed⟩ := plain
    cases opcode <;> first | rfl | exact absurd rfl single | cases unhashed

theorem ofNumber {number : Nat} (bounded : number < 2 ^ 64) : Names [.ofNumber number] [] := by
  unfold Instruction.ofNumber
  split
  next => exact ⟨rfl, rfl⟩
  next =>
    have short := (length_numberBytes_le number 8).mpr (Nat.lt_trans bounded (by decide))
    refine ⟨?_, rfl⟩
    simp only [keyPushes, keysFrom, PushRole.keys, List.append_nil]
    rw [if_pos (by omega)]

theorem pushKey {κ : Type} [PublicKey κ] (context : Context) (key : κ) :
    Names [Script.pushKey context key] [.key (PublicKey.pushed context.scheme key)] := by
  have long : ¬ (PublicKey.pushed context.scheme key).length < 32 := by
    cases context.scheme with
    | ecdsa =>
      rw [PublicKey.pushed, FullKey.length_bytes]
      split <;> decide
    | schnorr => simp [PublicKey.pushed, XOnlyKey.bytes]
  refine ⟨?_, rfl⟩
  simp only [keyPushes, keysFrom, Script.pushKey, PushRole.keys, List.append_nil]
  rw [if_neg long]

/-- The verifying form of an opcode names no more keys than the opcode, and hashes nothing. -/
theorem verified (names : Names first keys) : Names first.verified keys := by
  have more : Names (first ++ [.op .verify]) keys := names.concat (op .verify (by decide))
  unfold Script.verified
  split
  next opcode last =>
    split
    next verifying form =>
      obtain ⟨front, rfl⟩ := List.getLast?_eq_some_iff.mp last
      rw [List.dropLast_concat]
      obtain ⟨reads, -⟩ := names
      rw [keyPushes, keysFrom_append] at reads
      refine ⟨?_, ?_⟩
      · rw [keyPushes, keysFrom_append, ← reads]
        cases front.foldl PushRole.next .plain <;> rfl
      · rw [List.foldl_append]
        cases opcode <;> cases form <;> cases front.foldl PushRole.next .plain <;> rfl
    next => exact more
  next => exact more

end Names

end Script

namespace Leaf

variable {κ δ : Type} [PublicKey κ] (context : Context)

/-- What the script of a leaf pushes for a key of the leaf. -/
def keyPush (l : Leaf κ δ) (key : κ) : KeyPush :=
  match l with
  | keyHash _ => .hash (PublicKey.hash context.scheme key)
  | _ => .key (PublicKey.pushed context.scheme key)

/-- What the script of a leaf pushes for its keys. -/
def keyPushes (l : Leaf κ δ) : List KeyPush :=
  l.keys.map (l.keyPush context)

theorem keyPushes_shows (l : Leaf κ δ) :
    List.Forall₂ (fun push key => push.Shows (PublicKey.pushed context.scheme key))
      (l.keyPushes context) l.keys := by
  have shows (key : κ) : (l.keyPush context key).Shows (PublicKey.pushed context.scheme key) := by
    cases l <;> rfl
  exact List.forall₂_map_left_iff.mpr (List.forall₂_same.mpr fun key _ => shows key)

end Leaf

namespace Script

variable {κ : Type} [PublicKey κ] (context : Context)

theorem names_checkSigChain (keys : List κ) : Names (checkSigChain context keys)
    (keys.map fun key => .key (PublicKey.pushed context.scheme key)) := by
  have checked (key : κ) (opcode : Opcode) (plain : opcode ≠ .dup ∧ opcode.isHash = false) :
      Names [pushKey context key, .op opcode] [.key (PublicKey.pushed context.scheme key)] :=
    (Names.pushKey context key).concat (.op opcode plain)
  cases keys with
  | nil => exact .nil
  | cons first rest =>
    have others := Names.flatMap fun key (_ : key ∈ rest) =>
      checked key .checkSigAdd (by decide)
    rw [← List.map_eq_flatMap] at others
    exact (checked first .checkSig (by decide)).append others

/-- The script of a leaf names the keys of the leaf, in their order. -/
theorem names_ofLeaf (l : Leaf κ Digest) : Names (ofLeaf context l) (l.keyPushes context) := by
  have counted {cap : Option Nat} {most : Nat} (ks : Threshold κ cap) (bound : most ∈ cap)
      (few : most < 2 ^ 64) : Names [.ofNumber ks.k] [] ∧ Names [.ofNumber ks.n] [] := by
    have capped := ks.capped most bound
    have enough := ks.k_le
    exact ⟨.ofNumber (by omega), .ofNumber (by rw [Threshold.n]; omega)⟩
  cases l with
  | one => exact .ofNumber (by decide)
  | zero => exact .ofNumber (by decide)
  | key k => exact .pushKey context k
  | keyHash k => exact ⟨rfl, rfl⟩
  | after lock =>
    have few := lock.bounded
    exact (Names.ofNumber (by omega)).concat (.op .checkLockTimeVerify (by decide))
  | older lock =>
    have few := lock.bounded
    exact (Names.ofNumber (by omega)).concat (.op .checkSequenceVerify (by decide))
  | digest d =>
    have width : Names ([.op .size] ++ [.ofNumber 32]) [] :=
      (Names.op .size (by decide)).append (.ofNumber (by decide))
    have test : Names ([.op .size] ++ [.ofNumber 32] ++ [.op .equalVerify]) [] :=
      width.append (.op .equalVerify (by decide))
    have compared : Names [.op (hashOpcode d.kind), .push d.bytes, .op .equal] [] := by
      cases d.kind <;> exact ⟨rfl, rfl⟩
    exact test.append compared
  | multi ks =>
    obtain ⟨k, n⟩ := counted ks rfl (by decide)
    have keys := Names.flatMap fun key (_ : key ∈ ks.items) => Names.pushKey context key
    rw [← List.map_eq_flatMap, ← List.map_eq_flatMap] at keys
    exact (k.append keys).concat (n.append (.op .checkMultiSig (by decide)))
  | multiA ks =>
    obtain ⟨k, _⟩ := counted ks rfl (by decide)
    exact (names_checkSigChain context ks.items).concat (k.append (.op .numEqual (by decide)))

end Script

namespace Condition

variable {κ α : Type} [PublicKey κ] (context : Context)

/-- What the script pushes for each of the listed keys of a condition, in the order of the list. -/
def keyPushes (t : Condition κ Digest α) : List KeyPush :=
  (Traversal.preorder t).flatMap fun x => match x.fragment with
    | .leaf l => l.keyPushes context
    | _ => []

mutual

/-- What the script pushes for the keys, where the third child of an `andor` comes before the second. -/
def keysInScript : Condition κ Digest α → List KeyPush
  | leaf _ l => l.keyPushes context
  | wrap _ _ x => keysInScript x
  | pair _ _ x y => keysInScript x ++ keysInScript y
  | andOr _ x y z => keysInScript x ++ keysInScript z ++ keysInScript y
  | thresh _ _ items => keysInScripts items

/-- What the scripts of listed conditions push for their keys. -/
def keysInScripts : List (Condition κ Digest α) → List KeyPush
  | [] => []
  | x :: rest => keysInScript x ++ keysInScripts rest

end

theorem keysInScripts_eq_flatMap (items : List (Condition κ Digest α)) :
    keysInScripts context items = items.flatMap (keysInScript context) := by
  induction items with
  | nil => rfl
  | cons x rest ih => rw [keysInScripts, ih, List.flatMap_cons]

theorem keyPushes_eq (t : Condition κ Digest α) :
    t.keyPushes context =
      (match t.fragment with | .leaf l => l.keyPushes context | _ => []) ++
        t.children.flatMap (keyPushes context) := by
  rw [keyPushes, Traversal.preorder_eq, List.flatMap_cons, List.flatMap_assoc]
  rfl

@[simp] theorem keyPushes_leaf (note : α) (l : Leaf κ Digest) :
    (leaf note l).keyPushes context = l.keyPushes context := by
  simp [keyPushes_eq, fragment]

@[simp] theorem keyPushes_wrap (note : α) (w : Wrapper) (x : Condition κ Digest α) :
    (wrap note w x).keyPushes context = x.keyPushes context := by
  simp [keyPushes_eq context (wrap note w x), fragment]

@[simp] theorem keyPushes_pair (note : α) (op : Connective) (x y : Condition κ Digest α) :
    (pair note op x y).keyPushes context = x.keyPushes context ++ y.keyPushes context := by
  simp [keyPushes_eq context (pair note op x y), fragment]

@[simp] theorem keyPushes_andOr (note : α) (x y z : Condition κ Digest α) :
    (andOr note x y z).keyPushes context =
      x.keyPushes context ++ y.keyPushes context ++ z.keyPushes context := by
  simp [keyPushes_eq context (andOr note x y z), fragment]

@[simp] theorem keyPushes_thresh (note : α) (k : Nat) (items : List (Condition κ Digest α)) :
    (thresh note k items).keyPushes context = items.flatMap (keyPushes context) := by
  simp [keyPushes_eq context (thresh note k items), fragment]

open Script in
/-- The script of a condition names its keys, where the third child of an `andor` comes before the second.
-/
theorem names_script {t : Condition κ Digest α} (counts : t.CountsBelow (2 ^ 64)) :
    Names (t.script context) (t.keysInScript context) := by
  induction t using induct with
  | leaf note l =>
    rw [script_leaf]
    exact names_ofLeaf context l
  | wrap note w x ih =>
    have below := ih ((countsBelow_wrap ..).mp counts)
    rw [script_wrap, keysInScript]
    cases w with
    | alt =>
      have start := (Names.op .toAltStack (by decide)).append below
      exact start.concat (.op .fromAltStack (by decide))
    | swap => exact (Names.op .swap (by decide)).append below
    | check => exact below.concat (.op .checkSig (by decide))
    | zeroNotEqual => exact below.concat (.op .zeroNotEqual (by decide))
    | dupIf =>
      have guard : Names [.op .dup, .op .if] [] := ⟨rfl, rfl⟩
      exact (guard.append below).concat (.op .endIf (by decide))
    | verify => exact below.verified
    | nonzero =>
      have guard : Names [.op .size, .op .zeroNotEqual, .op .if] [] := ⟨rfl, rfl⟩
      exact (guard.append below).concat (.op .endIf (by decide))
  | pair note op x y ihX ihY =>
    obtain ⟨countsX, countsY⟩ := (countsBelow_pair ..).mp counts
    have first := ihX countsX
    have second := ihY countsY
    rw [script_pair, keysInScript]
    cases op with
    | andV => exact first.append second
    | andB => exact (first.append second).concat (.op .boolAnd (by decide))
    | orB => exact (first.append second).concat (.op .boolOr (by decide))
    | orD =>
      have test : Names [.op .ifDup, .op .notIf] [] := ⟨rfl, rfl⟩
      exact ((first.concat test).append second).concat (.op .endIf (by decide))
    | orC =>
      have test := first.concat (Names.op .notIf (by decide))
      exact (test.append second).concat (.op .endIf (by decide))
    | orI =>
      have start := (Names.op .if (by decide)).append first
      have left := start.concat (Names.op .else (by decide))
      exact (left.append second).concat (.op .endIf (by decide))
  | andOr note x y z ihX ihY ihZ =>
    obtain ⟨countsX, countsY, countsZ⟩ := (countsBelow_andOr ..).mp counts
    have test := (ihX countsX).concat (Names.op .notIf (by decide))
    have third := (test.append (ihZ countsZ)).concat (Names.op .else (by decide))
    rw [script_andOr, keysInScript]
    exact (third.append (ihY countsY)).concat (.op .endIf (by decide))
  | thresh note k items ih =>
    obtain ⟨few, countsBelow⟩ := (countsBelow_thresh ..).mp counts
    have below := fun x member => ih x member (countsBelow x member)
    have compare : Names ([.ofNumber k] ++ [.op .equal]) [] :=
      (Names.ofNumber few).append (.op .equal (by decide))
    rw [script_thresh, keysInScript, keysInScripts_eq_flatMap]
    cases items with
    | nil => exact compare
    | cons first rest =>
      obtain ⟨head, others⟩ := List.forall_mem_cons.mp below
      have adds := Names.flatMap fun x member =>
        (others x member).concat (Names.op .add (by decide))
      rw [List.map_cons, Script.threshold, List.flatMap_map, List.flatMap_cons]
      exact (head.append adds).concat compare

/-- The listed keys are the ones that are named, in the order of the list. -/
theorem keyPushes_shows (t : Condition κ Digest α) :
    List.Forall₂ (fun push key => push.Shows (PublicKey.pushed context.scheme key))
      (t.keyPushes context) t.keys := by
  rw [keyPushes, keys]
  induction Traversal.preorder t with
  | nil => exact .nil
  | cons x rest ih =>
    rw [List.flatMap_cons, List.flatMap_cons]
    refine List.rel_append ?_ ih
    cases x.fragment with
    | leaf l => exact l.keyPushes_shows context
    | _ => exact .nil

theorem keyPushes_eq_nil {t : Condition κ Digest α} : t.keyPushes context = [] ↔ t.keys = [] := by
  rw [← List.length_eq_zero_iff, (t.keyPushes_shows context).length_eq, List.length_eq_zero_iff]

/-- The script names the keys that are listed, each as often as it is listed. -/
theorem keysInScript_perm (t : Condition κ Digest α) :
    (t.keysInScript context).Perm (t.keyPushes context) := by
  induction t using induct with
  | leaf note l => rw [keysInScript, keyPushes_leaf]
  | wrap note w x ih => rwa [keysInScript, keyPushes_wrap]
  | pair note op x y ihX ihY =>
    rw [keysInScript, keyPushes_pair]
    exact ihX.append ihY
  | andOr note x y z ihX ihY ihZ =>
    rw [keysInScript, keyPushes_andOr, List.append_assoc, List.append_assoc]
    exact ihX.append ((ihZ.append ihY).trans List.perm_append_comm)
  | thresh note k items ih =>
    rw [keysInScript, keysInScripts_eq_flatMap, keyPushes_thresh]
    exact List.Perm.flatMap_left items ih

/-- No `andor` has keys both in its second and in its third child. -/
def KeysInOrder {κ δ α : Type} : Condition κ δ α → Prop :=
  All fun | .andOr _ y z => y.keys = [] ∨ z.keys = [] | _ => True

/-- Without such an `andor` the keys are listed in script order. -/
theorem keysInScript_eq {t : Condition κ Digest α} (ordered : t.KeysInOrder) :
    t.keysInScript context = t.keyPushes context := by
  induction t using induct with
  | leaf note l => rw [keysInScript, keyPushes_leaf]
  | wrap note w x ih => rw [keysInScript, keyPushes_wrap, ih ((all_wrap ..).mp ordered).2]
  | pair note op x y ihX ihY =>
    obtain ⟨-, orderedX, orderedY⟩ := (all_pair ..).mp ordered
    rw [keysInScript, keyPushes_pair, ihX orderedX, ihY orderedY]
  | andOr note x y z ihX ihY ihZ =>
    obtain ⟨keyless, orderedX, orderedY, orderedZ⟩ := (all_andOr ..).mp ordered
    rw [keysInScript, keyPushes_andOr, ihX orderedX, ihY orderedY, ihZ orderedZ]
    obtain none | none := keyless
    · rw [(keyPushes_eq_nil context).mpr none, List.append_nil, List.append_nil]
    · rw [(keyPushes_eq_nil context).mpr none, List.append_nil, List.append_nil]
  | thresh note k items ih =>
    obtain ⟨-, below⟩ := (all_thresh ..).mp ordered
    rw [keysInScript, keysInScripts_eq_flatMap, keyPushes_thresh]
    exact List.flatMap_congr fun x member => ih x member (below x member)

/-- Parts that are pairwise of one length are equal if their concatenations are. -/
private theorem eq_of_flatMap_eq {β γ : Type} {f g : β → List γ} {items : List β}
    (aligned : ∀ x ∈ items, (f x).length = (g x).length) (same : items.flatMap f = items.flatMap g) :
    ∀ x ∈ items, f x = g x := by
  induction items with
  | nil => exact nofun
  | cons x rest ih =>
    obtain ⟨head, others⟩ := List.forall_mem_cons.mp aligned
    rw [List.flatMap_cons, List.flatMap_cons] at same
    obtain ⟨first, later⟩ := List.append_inj same head
    exact List.forall_mem_cons.mpr ⟨first, ih others later⟩

/-- Two blocks of different items cannot trade places unless one of them is empty. -/
private theorem eq_nil_of_append_eq {β : Type} {second third second' third' : List β}
    (distinct : (second ++ third).Nodup) (perm : third'.Perm third)
    (same : third' ++ second' = second ++ third) : second = [] ∨ third = [] := by
  cases second with
  | nil => exact .inl rfl
  | cons first rest =>
    cases third' with
    | nil => exact .inr perm.nil_eq.symm
    | cons first' rest' =>
      obtain ⟨rfl, -⟩ := List.cons.inj same
      have twice : first' ∈ third := perm.subset List.mem_cons_self
      exact absurd twice fun among =>
        (List.nodup_append.mp distinct).2.2 first' List.mem_cons_self first' among rfl

/-- Keys that are all named differently are listed in script order only without such an `andor`. -/
theorem keysInOrder_of_eq {t : Condition κ Digest α} (distinct : (t.keyPushes context).Nodup)
    (same : t.keysInScript context = t.keyPushes context) : t.KeysInOrder := by
  have aligned (x : Condition κ Digest α) :
      (x.keysInScript context).length = (x.keyPushes context).length :=
    (x.keysInScript_perm context).length_eq
  induction t using induct with
  | leaf note l => exact (all_leaf ..).mpr trivial
  | wrap note w x ih =>
    rw [keysInScript, keyPushes_wrap] at same
    rw [keyPushes_wrap] at distinct
    exact (all_wrap ..).mpr ⟨trivial, ih distinct same⟩
  | pair note op x y ihX ihY =>
    rw [keysInScript, keyPushes_pair] at same
    rw [keyPushes_pair] at distinct
    obtain ⟨distinctX, distinctY, -⟩ := List.nodup_append.mp distinct
    obtain ⟨first, second⟩ := List.append_inj same (aligned x)
    exact (all_pair ..).mpr ⟨trivial, ihX distinctX first, ihY distinctY second⟩
  | andOr note x y z ihX ihY ihZ =>
    rw [keysInScript, keyPushes_andOr, List.append_assoc, List.append_assoc] at same
    rw [keyPushes_andOr, List.append_assoc] at distinct
    obtain ⟨distinctX, below, -⟩ := List.nodup_append.mp distinct
    obtain ⟨distinctY, distinctZ, -⟩ := List.nodup_append.mp below
    obtain ⟨first, rest⟩ := List.append_inj same (aligned x)
    have orderedX := ihX distinctX first
    obtain none | none := eq_nil_of_append_eq below (z.keysInScript_perm context) rest
    · have none' : y.keysInScript context = [] := List.length_eq_zero_iff.mp (by rw [aligned, none]; rfl)
      rw [none, none', List.append_nil, List.nil_append] at rest
      exact (all_andOr ..).mpr ⟨.inl ((keyPushes_eq_nil context).mp none), orderedX,
        ihY distinctY (none'.trans none.symm), ihZ distinctZ rest⟩
    · have none' : z.keysInScript context = [] := List.length_eq_zero_iff.mp (by rw [aligned, none]; rfl)
      rw [none, none', List.append_nil, List.nil_append] at rest
      exact (all_andOr ..).mpr ⟨.inr ((keyPushes_eq_nil context).mp none), orderedX,
        ihY distinctY rest, ihZ distinctZ (none'.trans none.symm)⟩
  | thresh note k items ih =>
    rw [keysInScript, keysInScripts_eq_flatMap, keyPushes_thresh] at same
    rw [keyPushes_thresh] at distinct
    have equal := eq_of_flatMap_eq (fun x _ => aligned x) same
    exact (all_thresh ..).mpr ⟨trivial, fun x member =>
      ih x member ((List.nodup_flatMap.mp distinct).1 x member) (equal x member)⟩

/-- Read from left to right, an encoded script names the keys of its condition, each as often as it is
listed, but with the third child of every `andor` before the second. That is the order of the list unless
an `andor` has keys in both, and then it is not, if all keys are named differently. -/
theorem keys_in_script_order (t : Condition κ Digest α) (counts : t.CountsBelow (2 ^ 64)) :
    ∃ script, Script.parse? (t.script context).bytes = some script ∧
      script.keyPushes = t.keysInScript context ∧ script.keyPushes.Perm (t.keyPushes context) ∧
      (t.KeysInOrder → script.keyPushes = t.keyPushes context) ∧
      ((t.keyPushes context).Nodup → script.keyPushes = t.keyPushes context → t.KeysInOrder) := by
  have read := Script.parse?_bytes (t.isShort_script context counts)
  have names := (t.names_script context counts).keyPushes_eq
  refine ⟨t.script context, read, names, ?_, fun ordered => ?_, fun distinct same => ?_⟩
  · rw [names]
    exact t.keysInScript_perm context
  · rw [names]
    exact keysInScript_eq context ordered
  · rw [names] at same
    exact keysInOrder_of_eq context distinct same

end Condition

namespace Typed

/-- One of two other keys, as the first signs or not: `andor(pk(A),pk(B),pkh(C))`. -/
def eitherKey : Typed PointKey Digest :=
  ofFragment .segwit (.andOr (pk .segwit (pointOfByte 1)) (pk .segwit (pointOfByte 2)) (pkh 3))

theorem validated_eitherKey : Validated .segwit eitherKey := by
  refine validated_ofFragment rfl ?_
  simp only [Fragment.children, List.forall_mem_cons]
  exact ⟨validated_pk rfl, validated_pk rfl, validated_pkh 3, nofun⟩

theorem keys_in_script_order_eitherKey : ∃ script,
    Script.parse? (eitherKey.script .segwit).bytes = some script ∧
      script.keyPushes = [.key (compressedPoint false (pointOfByte 1).x),
        .hash (PublicKey.hash .ecdsa (pointOfByte 3)), .key (compressedPoint false (pointOfByte 2).x)] := by
  have counts : eitherKey.CountsBelow (2 ^ 64) := by simp [eitherKey, ofFragment, pk, pkh, Condition.node]
  obtain ⟨script, read, named, -⟩ := Condition.keys_in_script_order .segwit eitherKey counts
  exact ⟨script, read, named.trans rfl⟩

/-- The key that is listed second stands last in the script. -/
theorem exists_keys_out_of_order : ∃ (t : Typed PointKey Digest) (script : Script),
    Validated .segwit t ∧ Script.parse? (t.script .segwit).bytes = some script ∧
      script.keyPushes ≠ t.keyPushes .segwit := by
  have counts : eitherKey.CountsBelow (2 ^ 64) := by simp [eitherKey, ofFragment, pk, pkh, Condition.node]
  have read := Script.parse?_bytes (eitherKey.isShort_script .segwit counts)
  refine ⟨eitherKey, _, validated_eitherKey, read, ?_⟩
  rw [(eitherKey.names_script .segwit counts).keyPushes_eq]
  decide +kernel

end Typed

end LockScript
