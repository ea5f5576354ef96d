import Mathlib.Data.List.Forall2
import LockScript.Sanity
import LockScript.Proofs.Typing

/-! # The budget describes the script

A budget predicts the size of a script, its opcodes, and whether `v:` can take the place of its last
opcode, without building it. The encoder builds it, template by template. Both follow the tree, so
they are compared one fragment at a time: if the budgets of the children describe their scripts,
then so does the budget of the whole.
-/

namespace LockScript

/-- Keys that know how they are serialized. -/
class LawfulPublicKey (κ : Type) [PublicKey κ] : Prop where
  isUncompressed_eq : ∀ key : κ, KeyLike.isUncompressed key = (PublicKey.toFull key).isUncompressed

instance : LawfulPublicKey FullKey where
  isUncompressed_eq _ := rfl

instance : LawfulPublicKey PointKey where
  isUncompressed_eq _ := rfl

instance : LawfulPublicKey XOnlyKey where
  isUncompressed_eq _ := rfl

/-- Whether an instruction is an opcode above those that push small numbers. -/
def Instruction.isOpcode : Instruction → Bool
  | .op opcode => 0x60 < opcode.byte
  | .push _ | .small _ => false

@[simp] theorem Instruction.isOpcode_op (opcode : Opcode) : (Instruction.op opcode).isOpcode = true := by
  cases opcode <;> rfl

@[simp] theorem Instruction.isOpcode_push (data : Bytes) : (Instruction.push data).isOpcode = false :=
  rfl

@[simp] theorem Instruction.isOpcode_ofNumber (number : Nat) :
    (Instruction.ofNumber number).isOpcode = false := by
  unfold Instruction.ofNumber
  split <;> rfl

/-- A number of `count` bytes has its top bit clear in the last of them. -/
theorem length_numberBytes (number : Nat) (narrow : number < 2 ^ 39) :
    (numberBytes number).length =
      if number < 0x80 then 1 else if number < 0x8000 then 2 else if number < 0x800000 then 3
      else if number < 0x80000000 then 4 else 5 := by
  have step (n : Nat) : (numberBytes n).length =
      if n < 0x80 then 1 else (numberBytes (n / 256)).length + 1 := by
    rw [numberBytes]
    split <;> rfl
  rw [step number, step (number / 256), step (number / 256 / 256), step (number / 256 / 256 / 256),
    step (number / 256 / 256 / 256 / 256)]
  split_ifs <;> omega

theorem length_bytes_push {data : Bytes} (short : data.length < 0x4c) :
    (Instruction.push data).bytes.length = data.length + 1 := by
  simp [Instruction.bytes, short]

/-- The push of a number takes as many bytes as the budget says. -/
theorem length_bytes_ofNumber {number : Nat} (narrow : number < 2 ^ 39) :
    (Instruction.ofNumber number).bytes.length = numberLength number := by
  have data := length_numberBytes number narrow
  unfold Instruction.ofNumber numberLength
  split
  next isSmall =>
    rw [if_pos (Nat.le_of_lt_succ isSmall)]
    rfl
  next isLarge =>
    have short : (numberBytes number).length < 0x4c := by
      rw [data]
      split_ifs <;> omega
    rw [length_bytes_push short, data]
    split_ifs <;> omega

namespace Script

/-- The number of opcodes other than pushes. -/
def opcodes (script : Script) : Nat :=
  script.countP Instruction.isOpcode

/-- Whether the last opcode has a verifying form. -/
def endsVerifiable (script : Script) : Bool :=
  match script.getLast? with
  | some (.op opcode) => opcode.verifying?.isSome
  | _ => false

@[simp] theorem bytes_nil : bytes [] = [] := rfl

@[simp] theorem bytes_cons (first : Instruction) (rest : Script) :
    bytes (first :: rest) = first.bytes ++ bytes rest := rfl

@[simp] theorem bytes_append (first second : Script) :
    bytes (first ++ second) = bytes first ++ bytes second := by
  simp [bytes]

@[simp] theorem opcodes_nil : opcodes [] = 0 := rfl

@[simp] theorem opcodes_cons (first : Instruction) (rest : Script) :
    opcodes (first :: rest) = opcodes rest + if first.isOpcode then 1 else 0 := by
  simp [opcodes, List.countP_cons]

@[simp] theorem opcodes_append (first second : Script) :
    opcodes (first ++ second) = opcodes first + opcodes second := by
  simp [opcodes]

@[simp] theorem endsVerifiable_append_op (script : Script) (opcode : Opcode) :
    endsVerifiable (script ++ [.op opcode]) = opcode.verifying?.isSome := by
  simp [endsVerifiable]

theorem endsVerifiable_append {first second : Script} (nonempty : second ≠ []) :
    endsVerifiable (first ++ second) = endsVerifiable second := by
  simp [endsVerifiable, List.getLast?_append_of_ne_nil first nonempty]

@[simp] theorem length_bytes_op (opcode : Opcode) : (Instruction.op opcode).bytes.length = 1 := rfl

theorem endsVerifiable_cons {first : Instruction} {rest : Script} (nonempty : rest ≠ []) :
    endsVerifiable (first :: rest) = endsVerifiable rest := by
  rw [← List.singleton_append, endsVerifiable_append nonempty]

/-- Folding `v:` into the last opcode changes neither the size nor the number of opcodes; otherwise
both grow by one. -/
theorem verified_spec (script : Script) :
    script.verified ≠ [] ∧ script.verified.endsVerifiable = false ∧
      script.verified.bytes.length =
        script.bytes.length + (if script.endsVerifiable then 0 else 1) ∧
      script.verified.opcodes = script.opcodes + (if script.endsVerifiable then 0 else 1) := by
  rcases List.eq_nil_or_concat script with rfl | ⟨front, last, rfl⟩
  · exact ⟨by simp [verified], rfl, rfl, rfl⟩
  · cases last with
    | push data => simp [verified, endsVerifiable, Opcode.verifying?]; omega
    | small number => simp [verified, endsVerifiable, Opcode.verifying?]; omega
    | op opcode => cases opcode <;> simp [verified, endsVerifiable, Opcode.verifying?]

theorem opcodes_le_length_bytes (script : Script) : script.opcodes ≤ script.bytes.length := by
  induction script with
  | nil => exact Nat.le_refl 0
  | cons first rest ih =>
    have written : (if first.isOpcode then 1 else 0) ≤ first.bytes.length := by
      cases first with
      | op opcode => exact (Instruction.isOpcode_op opcode).symm ▸ Nat.le_refl 1
      | push data => exact Nat.zero_le _
      | small number => exact Nat.zero_le _
    rw [opcodes_cons, bytes_cons, List.length_append, Nat.add_comm]
    exact Nat.add_le_add written ih

theorem endsVerifiable_iff (script : Script) :
    script.endsVerifiable = true ↔
      ∃ opcode ∈ [Opcode.equal, .numEqual, .checkSig, .checkMultiSig],
        script.getLast? = some (.op opcode) := by
  unfold endsVerifiable
  cases last : script.getLast? with
  | none => simp
  | some instruction =>
    cases instruction with
    | op opcode => cases opcode <;> simp [Opcode.verifying?]
    | push data => simp
    | small number => simp

end Script

open Quantity (amount)

/-- Quantities that add up as the natural numbers do. -/
class LawfulQuantity (ν : Type) [Quantity ν] : Prop where
  amount_add : ∀ a b : Nat, (amount (a + b) : ν) = amount a + amount b

instance : LawfulQuantity Nat where
  amount_add _ _ := rfl

instance : LawfulQuantity Word where
  amount_add := UInt64.ofNat_add

/-- The budget is right about the script: its size and opcodes, up to the wrap-around of words, and
whether `v:` is free. -/
structure Budget.Describes {ν : Type} [Quantity ν] (budget : Budget ν) (script : Script) : Prop where
  scriptSize_eq : budget.scriptSize = amount script.bytes.length
  opcodes_eq : budget.opcodes = amount script.opcodes
  freeVerify_eq : budget.freeVerify = script.endsVerifiable
  nonempty : script ≠ []

namespace Budget.Describes

open LawfulQuantity (amount_add)

variable {ν : Type} [Quantity ν] [LawfulQuantity ν] {x y z : Budget ν} {sx sy sz : Script}

omit [LawfulQuantity ν] in
theorem withoutMixedPaths (right : x.Describes sx) : x.withoutMixedPaths.Describes sx :=
  ⟨right.scriptSize_eq, right.opcodes_eq, right.freeVerify_eq, right.nonempty⟩

/-- Wrapping costs as many bytes as opcodes, whatever is put around the script. -/
private theorem grown (right : x.Describes sx) (cost : Nat) {script : Script}
    (size : script.bytes.length = sx.bytes.length + cost)
    (opcodes : script.opcodes = sx.opcodes + cost) (nonempty : script ≠ [])
    (spent : y.scriptSize = x.scriptSize + amount cost ∧ y.opcodes = x.opcodes + amount cost)
    (free : y.freeVerify = script.endsVerifiable) : y.Describes script where
  scriptSize_eq := by rw [size, amount_add, ← right.scriptSize_eq, spent.1]
  opcodes_eq := by rw [opcodes, amount_add, ← right.opcodes_eq, spent.2]
  freeVerify_eq := free
  nonempty := nonempty

theorem wrap (right : x.Describes sx) (w : Wrapper) :
    (Budget.wrap w x).Describes (Script.wrap w sx) := by
  have nonempty : Script.wrap w sx ≠ [] := by
    cases w <;> simp [Script.wrap, (Script.verified_spec sx).1]
  cases w with
  | alt =>
    refine right.grown 2 ?_ ?_ nonempty ⟨rfl, rfl⟩ ?_
    · simp [Script.wrap]; omega
    · simp [Script.wrap]
    · exact (Script.endsVerifiable_append_op (.op .toAltStack :: sx) .fromAltStack).symm
  | swap =>
    refine right.grown 1 ?_ ?_ nonempty ⟨rfl, rfl⟩ ?_
    · simp [Script.wrap]; omega
    · simp [Script.wrap]
    · exact right.freeVerify_eq.trans (Script.endsVerifiable_cons right.nonempty).symm
  | check =>
    refine right.grown 1 ?_ ?_ nonempty ⟨rfl, rfl⟩ ?_
    · simp [Script.wrap]
    · simp [Script.wrap]
    · exact (Script.endsVerifiable_append_op sx .checkSig).symm
  | dupIf =>
    refine right.grown 3 ?_ ?_ nonempty ⟨rfl, rfl⟩ ?_
    · simp [Script.wrap]; omega
    · simp [Script.wrap]
    · exact (Script.endsVerifiable_append_op ([.op .dup, .op .if] ++ sx) .endIf).symm
  | verify =>
    obtain ⟨nonempty, last, size, opcodes⟩ := Script.verified_spec sx
    rw [← right.freeVerify_eq] at size opcodes
    exact right.grown _ size opcodes nonempty ⟨rfl, rfl⟩ last.symm
  | nonzero =>
    refine right.grown 4 ?_ ?_ nonempty ⟨rfl, rfl⟩ ?_
    · simp [Script.wrap]; omega
    · simp [Script.wrap]
    · exact (Script.endsVerifiable_append_op ([.op .size, .op .zeroNotEqual, .op .if] ++ sx) .endIf).symm
  | zeroNotEqual =>
    refine right.grown 1 ?_ ?_ nonempty ⟨rfl, rfl⟩ ?_
    · simp [Script.wrap]
    · simp [Script.wrap]
    · exact (Script.endsVerifiable_append_op sx .zeroNotEqual).symm

theorem total_eq {items : List (Budget ν)} {scripts : List Script}
    (right : List.Forall₂ Budget.Describes items scripts) :
    Quantity.total (items.map scriptSize) = amount (sumOf (fun s => s.bytes.length) scripts) ∧
      Quantity.total (items.map Budget.opcodes) = amount (sumOf Script.opcodes scripts) := by
  induction right with
  | nil => exact ⟨rfl, rfl⟩
  | cons first _ ih =>
    simp only [Quantity.total, List.map_cons, List.foldr_cons, sumOf, amount_add] at ih ⊢
    exact ⟨by rw [ih.1, first.scriptSize_eq], by rw [ih.2, first.opcodes_eq]⟩

/-- Joining costs as many bytes as opcodes on top of what the parts cost. -/
private theorem joined {items : List (Budget ν)} {scripts : List Script}
    (right : List.Forall₂ Budget.Describes items scripts) (cost : Nat) {script : Script}
    (size : script.bytes.length = sumOf (fun s => s.bytes.length) scripts + cost)
    (opcodes : script.opcodes = sumOf Script.opcodes scripts + cost) (nonempty : script ≠ [])
    (spent : z.scriptSize = Quantity.total (items.map scriptSize) + amount cost ∧
      z.opcodes = Quantity.total (items.map Budget.opcodes) + amount cost)
    (free : z.freeVerify = script.endsVerifiable) : z.Describes script where
  scriptSize_eq := by rw [size, amount_add, ← (total_eq right).1, spent.1]
  opcodes_eq := by rw [opcodes, amount_add, ← (total_eq right).2, spent.2]
  freeVerify_eq := free
  nonempty := nonempty

theorem pair (left : x.Describes sx) (right : y.Describes sy) (op : Connective) :
    (Budget.pair op x y).Describes (Script.pair op sx sy) := by
  have both : List.Forall₂ Budget.Describes [x, y] [sx, sy] := .cons left (.cons right .nil)
  have nonempty : Script.pair op sx sy ≠ [] := by
    cases op <;> simp [Script.pair, right.nonempty]
  cases op with
  | andV =>
    refine joined both 0 ?_ ?_ nonempty ⟨rfl, rfl⟩ ?_
    · simp [Script.pair, sumOf]
    · simp [Script.pair, sumOf]
    · exact right.freeVerify_eq.trans (Script.endsVerifiable_append right.nonempty).symm
  | andB =>
    refine joined both 1 ?_ ?_ nonempty ⟨rfl, rfl⟩ ?_
    · simp [Script.pair, sumOf]; omega
    · simp [Script.pair, sumOf]; omega
    · exact (Script.endsVerifiable_append_op (sx ++ sy) .boolAnd).symm
  | orB =>
    refine joined both 1 ?_ ?_ nonempty ⟨rfl, rfl⟩ ?_
    · simp [Script.pair, sumOf]; omega
    · simp [Script.pair, sumOf]; omega
    · exact (Script.endsVerifiable_append_op (sx ++ sy) .boolOr).symm
  | orD =>
    refine joined both 3 ?_ ?_ nonempty ⟨rfl, rfl⟩ ?_
    · simp [Script.pair, sumOf]; omega
    · simp [Script.pair, sumOf]; omega
    · exact (Script.endsVerifiable_append_op (sx ++ [.op .ifDup, .op .notIf] ++ sy) .endIf).symm
  | orC =>
    refine joined both 2 ?_ ?_ nonempty ⟨rfl, rfl⟩ ?_
    · simp [Script.pair, sumOf]; omega
    · simp [Script.pair, sumOf]; omega
    · exact (Script.endsVerifiable_append_op (sx ++ [.op .notIf] ++ sy) .endIf).symm
  | orI =>
    refine joined both 3 ?_ ?_ nonempty ⟨rfl, rfl⟩ ?_
    · simp [Script.pair, sumOf]; omega
    · simp [Script.pair, sumOf]; omega
    · exact (Script.endsVerifiable_append_op
        ([.op .if] ++ sx ++ [.op .else] ++ sy) .endIf).symm

theorem andOr (first : x.Describes sx) (second : y.Describes sy) (third : z.Describes sz) :
    (Budget.andOr x y z).Describes (Script.andOr sx sy sz) := by
  have all : List.Forall₂ Budget.Describes [x, y, z] [sx, sy, sz] :=
    .cons first (.cons second (.cons third .nil))
  refine joined all 3 ?_ ?_ (by simp [Script.andOr]) ⟨rfl, rfl⟩ ?_
  · simp [Script.andOr, sumOf]; omega
  · simp [Script.andOr, sumOf]; omega
  · exact (Script.endsVerifiable_append_op
      (sx ++ [.op .notIf] ++ sz ++ [.op .else] ++ sy) .endIf).symm

theorem threshold {items : List (Budget ν)} {scripts : List Script} {k : Nat}
    (right : List.Forall₂ Budget.Describes items scripts) (inhabited : scripts ≠ [])
    (narrow : k < 2 ^ 39) :
    (Budget.threshold k items).Describes (Script.threshold k scripts) := by
  obtain ⟨first, rest, rfl⟩ := List.exists_cons_of_ne_nil inhabited
  have adds (rest : List Script) :
      (Script.bytes (rest.flatMap fun x => x ++ [.op .add])).length =
          sumOf (fun s => s.bytes.length) rest + rest.length ∧
        Script.opcodes (rest.flatMap fun x => x ++ [.op .add]) =
          sumOf Script.opcodes rest + rest.length := by
    induction rest with
    | nil => exact ⟨rfl, rfl⟩
    | cons x others ih => constructor <;> simp [sumOf, ih] <;> omega
  have count : items.length = rest.length + 1 := right.length_eq
  refine ⟨?_, ?_, ?_, by simp [Script.threshold]⟩
  · have size : (Script.threshold k (first :: rest)).bytes.length =
        sumOf (fun s => s.bytes.length) (first :: rest) + items.length + numberLength k := by
      simp [Script.threshold, adds rest, sumOf, length_bytes_ofNumber narrow, count]
      omega
    rw [size, amount_add, amount_add, ← (total_eq right).1]
    rfl
  · have opcodes : (Script.threshold k (first :: rest)).opcodes =
        sumOf Script.opcodes (first :: rest) + items.length := by
      simp [Script.threshold, adds rest, sumOf, count]
      omega
    rw [opcodes, amount_add, ← (total_eq right).2]
    rfl
  · have last : Script.threshold k (first :: rest) =
        (first ++ rest.flatMap (fun x => x ++ [.op .add]) ++ [.ofNumber k]) ++ [.op .equal] := by
      simp [Script.threshold]
    rw [last, Script.endsVerifiable_append_op]
    rfl

end Budget.Describes

section Keys

variable {κ : Type} [PublicKey κ] {context : Context}

theorem FullKey.length_bytes (key : FullKey) :
    key.bytes.length = if key.isUncompressed then 65 else 33 := by
  cases key <;> simp [FullKey.bytes, compressedPoint, FullKey.isUncompressed]

/-- Keys are pushed with one byte of length; no key is longer than a pushed element may be. -/
theorem PublicKey.length_pushed_le (scheme : SignatureScheme) (key : κ) :
    (PublicKey.pushed scheme key).length ≤ 65 := by
  cases scheme with
  | ecdsa =>
    simp only [PublicKey.pushed, FullKey.length_bytes]
    split <;> decide
  | schnorr => simp [PublicKey.pushed, XOnlyKey.bytes]

theorem PublicKey.length_pushed_pos (scheme : SignatureScheme) (key : κ) :
    0 < (PublicKey.pushed scheme key).length := by
  cases scheme with
  | ecdsa =>
    simp only [PublicKey.pushed, FullKey.length_bytes]
    split <;> decide
  | schnorr => simp [PublicKey.pushed, XOnlyKey.bytes]

@[simp] theorem Script.isOpcode_pushKey (key : κ) : (Script.pushKey context key).isOpcode = false :=
  rfl

theorem PublicKey.length_hash (scheme : SignatureScheme) (key : κ) :
    (PublicKey.hash scheme key).length = 20 :=
  HashKind.length_hash .hash160 _

variable [LawfulPublicKey κ]

/-- A key that its context allows is pushed in as many bytes as the context reckons with. -/
theorem Script.length_bytes_pushKey {key : κ} (allowed : context.checkKey key = .ok ()) :
    (Script.pushKey context key).bytes.length = context.keyLength key := by
  have short := PublicKey.length_pushed_le context.scheme key
  rw [Script.pushKey, length_bytes_push (Nat.lt_of_le_of_lt short (by decide))]
  have lawful := LawfulPublicKey.isUncompressed_eq key
  cases context with
  | legacy | bare =>
    simp only [Context.scheme, PublicKey.pushed, FullKey.length_bytes, ← lawful, Context.keyLength]
    split <;> rfl
  | segwit =>
    have compressed : (PublicKey.toFull key).isUncompressed = false := by
      rw [← lawful]
      by_contra uncompressed
      simp [Context.checkKey, Bool.of_not_eq_false uncompressed] at allowed
    simp [Context.scheme, PublicKey.pushed, FullKey.length_bytes, compressed, Context.keyLength]
  | tapscript => simp [Context.scheme, PublicKey.pushed, XOnlyKey.bytes, Context.keyLength]

theorem Script.pushKeys_spec {keys : List κ} (allowed : ∀ key ∈ keys, context.checkKey key = .ok ()) :
    (Script.bytes (keys.map (Script.pushKey context))).length = sumOf context.keyLength keys ∧
      Script.opcodes (keys.map (Script.pushKey context)) = 0 := by
  induction keys with
  | nil => exact ⟨rfl, rfl⟩
  | cons key rest ih =>
    obtain ⟨first, others⟩ := List.forall_mem_cons.mp allowed
    obtain ⟨size, opcodes⟩ := ih others
    refine ⟨?_, ?_⟩
    · simp [sumOf, Script.length_bytes_pushKey first, size]
    · simp [opcodes]

theorem Script.checkSigChain_spec {keys : List κ}
    (allowed : ∀ key ∈ keys, context.checkKey key = .ok ()) :
    (Script.checkSigChain context keys).bytes.length =
        sumOf (fun key => context.keyLength key + 1) keys ∧
      (Script.checkSigChain context keys).opcodes = keys.length := by
  -- After the first key every key adds a push and one opcode of its own.
  have later (opcode : Opcode) (keys : List κ) (allowed : ∀ key ∈ keys, context.checkKey key = .ok ()) :
      (Script.bytes (keys.flatMap fun key => [Script.pushKey context key, .op opcode])).length =
          sumOf (fun key => context.keyLength key + 1) keys ∧
        Script.opcodes (keys.flatMap fun key => [Script.pushKey context key, .op opcode]) =
          keys.length := by
    induction keys with
    | nil => exact ⟨rfl, rfl⟩
    | cons key rest ih =>
      obtain ⟨first, others⟩ := List.forall_mem_cons.mp allowed
      obtain ⟨size, opcodes⟩ := ih others
      refine ⟨?_, ?_⟩
      · simp [sumOf, Script.length_bytes_pushKey first, size]
        omega
      · simp [opcodes]
  cases keys with
  | nil => exact ⟨rfl, rfl⟩
  | cons key rest =>
    obtain ⟨first, others⟩ := List.forall_mem_cons.mp allowed
    obtain ⟨size, opcodes⟩ := later .checkSigAdd rest others
    refine ⟨?_, ?_⟩
    · simp [Script.checkSigChain, sumOf, Script.length_bytes_pushKey first, size]
      omega
    · simp [Script.checkSigChain, opcodes]

namespace Budget.Describes

variable {ν : Type} [Quantity ν]

omit [LawfulPublicKey κ] in
private theorem lock {value : Nat} {kinds : LockKinds} (bounded : value ≤ 0x80000000)
    {opcode : Opcode} (plain : opcode.verifying? = none) :
    (Budget.lock value kinds : Budget ν).Describes [.ofNumber value, .op opcode] := by
  have size := length_bytes_ofNumber (show value < 2 ^ 39 by omega)
  refine ⟨?_, ?_, ?_, by simp⟩
  · simp [size]
    rfl
  · simp
    rfl
  · have last := Script.endsVerifiable_append_op [.ofNumber value] opcode
    rw [plain] at last
    exact last.symm

theorem leaf {l : Leaf κ Digest}
    (allowed : context.checkFragment (.leaf l : Fragment κ Digest (Typed κ Digest)) = .ok ()) :
    (Budget.ofLeaf context l : Budget ν).Describes (Script.ofLeaf context l) := by
  cases l with
  | one | zero => exact ⟨rfl, rfl, rfl, by simp [Script.ofLeaf]⟩
  | key k =>
    refine ⟨?_, rfl, rfl, by simp [Script.ofLeaf]⟩
    simp [Script.ofLeaf, Script.length_bytes_pushKey allowed]
    rfl
  | keyHash k =>
    refine ⟨?_, rfl, rfl, by simp [Script.ofLeaf]⟩
    have hash := PublicKey.length_hash context.scheme k
    have push := length_bytes_push (show (PublicKey.hash context.scheme k).length < 0x4c by omega)
    simp [Script.ofLeaf, push, hash]
    rfl
  | after l => exact lock l.bounded rfl
  | older l => exact lock (Nat.le_of_lt l.bounded) rfl
  | digest d =>
    have short : d.bytes.length ≤ 32 := by
      rw [d.width_eq]
      cases d.kind <;> decide
    have push := length_bytes_push (show d.bytes.length < 0x4c by omega)
    refine ⟨?_, ?_, rfl, by simp [Script.ofLeaf]⟩
    · have size : (Script.ofLeaf context (.digest d : Leaf κ Digest)).bytes.length = 7 + d.kind.width := by
        simp [Script.ofLeaf, push, d.width_eq, length_bytes_ofNumber, numberLength]
        omega
      rw [size]
      rfl
    · have opcodes : (Script.ofLeaf context (.digest d : Leaf κ Digest)).opcodes = 4 := by simp [Script.ofLeaf]
      rw [opcodes]
      rfl
  | multi ks =>
    have few : ks.items.length ≤ 20 := ks.capped 20 rfl
    have atMost := ks.k_le
    simp only [Context.checkFragment] at allowed
    split at allowed
    next => cases allowed
    next =>
      obtain ⟨pushes, plain⟩ := Script.pushKeys_spec (forM_eq_ok.mp allowed)
      refine ⟨?_, ?_, ?_, by simp [Script.ofLeaf]⟩
      · have size : (Script.ofLeaf context (.multi ks)).bytes.length =
            numberLength ks.k + numberLength ks.items.length + 1 +
              sumOf context.keyLength ks.items := by
          simp [Script.ofLeaf, Threshold.n, pushes, length_bytes_ofNumber (show ks.k < 2 ^ 39 by omega),
            length_bytes_ofNumber (show ks.items.length < 2 ^ 39 by omega)]
          omega
        rw [size]
        rfl
      · have opcodes : (Script.ofLeaf context (.multi ks)).opcodes = 1 := by
          simp [Script.ofLeaf, plain]
        rw [opcodes]
        rfl
      · have last : Script.ofLeaf context (.multi ks) = (.ofNumber ks.k ::
            ks.items.map (Script.pushKey context) ++ [.ofNumber ks.n]) ++ [.op .checkMultiSig] := by
          simp [Script.ofLeaf]
        rw [last, Script.endsVerifiable_append_op]
        rfl
  | multiA ks =>
    have few : ks.items.length ≤ 125000 := ks.capped 125000 rfl
    have atMost := ks.k_le
    simp only [Context.checkFragment] at allowed
    split at allowed
    next => cases allowed
    next =>
      obtain ⟨pushes, checks⟩ := Script.checkSigChain_spec (forM_eq_ok.mp allowed)
      refine ⟨?_, ?_, ?_, by simp [Script.ofLeaf]⟩
      · have size : (Script.ofLeaf context (.multiA ks)).bytes.length =
            sumOf (fun key => context.keyLength key + 1) ks.items + numberLength ks.k + 1 := by
          simp [Script.ofLeaf, pushes, length_bytes_ofNumber (show ks.k < 2 ^ 39 by omega)]
          omega
        rw [size]
        rfl
      · have opcodes : (Script.ofLeaf context (.multiA ks)).opcodes = ks.items.length + 1 := by
          simp [Script.ofLeaf, checks]
        rw [opcodes]
        rfl
      · have last : Script.ofLeaf context (.multiA ks) =
            (Script.checkSigChain context ks.items ++ [.ofNumber ks.k]) ++ [.op .numEqual] := by
          simp [Script.ofLeaf]
        rw [last, Script.endsVerifiable_append_op]
        rfl

end Budget.Describes

end Keys

namespace Typed

variable {κ : Type} [PublicKey κ] [LawfulPublicKey κ] {context : Context} {t : Typed κ Digest}

/-- Budgets that follow the rules describe the scripts of validated conditions, whatever they are
counted in. -/
theorem Validated.describes_of_rule {ν : Type} [Quantity ν] [LawfulQuantity ν]
    {budget : Typed κ Digest → Budget ν}
    (rule : ∀ t, Validated context t → budget t = Budget.ofFragment context (t.fragment.map budget))
    (valid : Validated context t) (counts : t.CountsBelow (2 ^ 39)) :
    (budget t).Describes (t.script context) := by
  induction t using Condition.induct with
  | leaf note l =>
    rw [rule _ valid, Condition.script_leaf]
    exact (Budget.Describes.leaf valid.allowed).withoutMixedPaths
  | wrap note w x ih =>
    rw [Condition.countsBelow_wrap] at counts
    have below := ih valid.wrap.1 counts
    rw [rule _ valid, Condition.script_wrap]
    exact (below.wrap w).withoutMixedPaths
  | pair note op x y ihX ihY =>
    obtain ⟨validX, validY, _⟩ := valid.pair
    obtain ⟨countsX, countsY⟩ := (Condition.countsBelow_pair ..).mp counts
    have left := ihX validX countsX
    have right := ihY validY countsY
    rw [rule _ valid, Condition.script_pair]
    exact (left.pair right op).withoutMixedPaths
  | andOr note x y z ihX ihY ihZ =>
    obtain ⟨validX, validY, validZ, _⟩ := valid.andOr
    obtain ⟨countsX, countsY, countsZ⟩ := (Condition.countsBelow_andOr ..).mp counts
    have first := ihX validX countsX
    have second := ihY validY countsY
    have third := ihZ validZ countsZ
    rw [rule _ valid, Condition.script_andOr]
    exact (first.andOr second third).withoutMixedPaths
  | thresh note k items ih =>
    obtain ⟨below, positive, bounded, _⟩ := valid.thresh
    obtain ⟨few, countsBelow⟩ := (Condition.countsBelow_thresh ..).mp counts
    have all : List.Forall₂ Budget.Describes (items.map budget)
        (items.map (Condition.script context)) := by
      rw [List.forall₂_map_left_iff, List.forall₂_map_right_iff, List.forall₂_same]
      exact fun x member => ih x member (below x member) (countsBelow x member)
    have inhabited : items.map (Condition.script context) ≠ [] := by
      intro none
      rw [List.map_eq_nil_iff.mp none] at bounded
      exact absurd bounded (Nat.not_le_of_gt positive)
    rw [rule _ valid, Condition.script_thresh]
    exact (Budget.Describes.threshold all inhabited few).withoutMixedPaths

/-- The budget of a validated condition describes its script. -/
theorem Validated.describes (valid : Validated context t) (counts : t.CountsBelow (2 ^ 39)) :
    t.budget.Describes (t.script context) :=
  valid.describes_of_rule (fun _ valid => valid.spent) counts

/-- Compiling measures a script that the budget describes, so it ends as the check of the metrics
does. -/
theorem Validated.compile_eq (valid : Validated context t) (counts : t.CountsBelow (2 ^ 39)) :
    t.compile context =
      (t.metrics.check context).map fun _ => ⟨t.script context, t.metrics⟩ := by
  have size : UInt64.ofNat (t.script context).bytes.length = t.metrics.scriptSize :=
    (valid.describes counts).scriptSize_eq.symm
  rw [compile, size]
  cases t.metrics.check context <;> rfl

/-- For a validated condition, the budget gives the size of the script, the number of its opcodes
and whether its last opcode has a verifying form; and a condition compiles if and only if it is
within the limits, to the metrics that the budget promises or to the error that they run into.
The lengths that `numberLength` tells are those of script numbers below `2 ^ 39`, and sizes are words. -/
theorem estimate_eq_encoding (valid : Validated context t) (counts : t.CountsBelow (2 ^ 39))
    (fits : (t.script context).bytes.length < 2 ^ 64) :
    t.budget.scriptSize.toNat = (t.script context).bytes.length ∧
      t.budget.opcodes.toNat = (t.script context).countP Instruction.isOpcode ∧
      (t.budget.freeVerify = true ↔
        ∃ opcode ∈ [Opcode.equal, .numEqual, .checkSig, .checkMultiSig],
          (t.script context).getLast? = some (.op opcode)) ∧
      ((t.compile context).isOk = true ↔ t.withinLimits context = true) ∧
      (∀ compiled, t.compile context = .ok compiled →
        compiled.script = t.script context ∧ compiled.metrics = t.metrics) ∧
      ∀ error, t.compile context = .error error ↔ t.metrics.check context = .error error := by
  have right := valid.describes counts
  have compiles := valid.compile_eq counts
  have few := Nat.lt_of_le_of_lt (Script.opcodes_le_length_bytes (t.script context)) fits
  refine ⟨?_, ?_, ?_, ?_, ?_, ?_⟩
  · rw [right.scriptSize_eq]
    exact UInt64.toNat_ofNat_of_lt' fits
  · rw [right.opcodes_eq]
    exact UInt64.toNat_ofNat_of_lt' few
  · rw [right.freeVerify_eq]
    exact Script.endsVerifiable_iff _
  · rw [compiles, withinLimits]
    cases t.metrics.check context <;> rfl
  · intro compiled success
    rw [compiles, map_eq_ok] at success
    obtain ⟨_, _, rfl⟩ := success
    exact ⟨rfl, rfl⟩
  · intro error
    rw [compiles]
    cases t.metrics.check context <;> simp [Except.map]

/-- Two of three take 191 bytes in a segwit script, of which 16 are opcodes, as the budget says. -/
theorem estimate_eq_encoding_twoOfThree : Validated .segwit twoOfThree ∧
    twoOfThree.CountsBelow (2 ^ 39) ∧ (twoOfThree.script .segwit).bytes.length = 191 ∧
      (twoOfThree.script .segwit).countP Instruction.isOpcode = 16 ∧
      twoOfThree.budget.scriptSize.toNat = 191 ∧ twoOfThree.budget.opcodes.toNat = 16 := by
  have size : (twoOfThree.script .segwit).bytes.length = 191 := by decide +kernel
  have count : (twoOfThree.script .segwit).countP Instruction.isOpcode = 16 := by decide +kernel
  obtain ⟨budgeted, counted, _⟩ :=
    estimate_eq_encoding validated_twoOfThree countsBelow_twoOfThree (size.trans_lt (by decide))
  exact ⟨validated_twoOfThree, countsBelow_twoOfThree, size, count, budgeted.trans size, counted.trans count⟩

end Typed

end LockScript
