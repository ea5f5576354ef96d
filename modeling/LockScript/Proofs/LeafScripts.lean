import LockScript.Proofs.Composition
import LockScript.Proofs.Signatures

/-! # Scripts of leaves

Each leaf has a template of a few instructions, which is run here from any stack. Only `multi` and
`multi_a` have scripts that grow with the number of keys.
-/

namespace LockScript

namespace Evaluator

variable {e : Evaluator} {κ : Type} [PublicKey κ] {context : Context}

private theorem exec_cons {first : Instruction} {rest : Script} (balanced : e.Balanced [first])
    (store : Stacks) : e.exec (first :: rest) store = (e.exec [first] store).bind (e.exec rest) :=
  balanced.exec_append store

theorem exec_cons_op {opcode : Opcode} (plain : opcode.isPlain = true) (rest : Script)
    (store : Stacks) :
    e.exec (.op opcode :: rest) store = (e.execute? opcode store).bind (e.exec rest) := by
  rw [exec_cons (e.balanced_op opcode plain), exec_op plain]

theorem exec_cons_push (data : Bytes) (rest : Script) (store : Stacks) :
    e.exec (.push data :: rest) store = e.exec rest ⟨data :: store.main, store.alt⟩ := by
  rw [exec_cons (e.balanced_push data), exec_push, Option.bind_some]

theorem exec_cons_ofNumber (number : Nat) (rest : Script) (store : Stacks) :
    e.exec (.ofNumber number :: rest) store =
      e.exec rest ⟨Bytes.writeNumber number :: store.main, store.alt⟩ := by
  rw [exec_cons (e.balanced_ofNumber number), exec_ofNumber, Option.bind_some]

/-- What a signature check goes on with. -/
theorem exec_checkSig (key : Bytes) (main alt : List Bytes) {out : Stacks} :
    e.exec [.op .checkSig] ⟨key :: main, alt⟩ = some out ↔
      ∃ answer signature rest, main = signature :: rest ∧
        e.sigVerdict? key signature = some answer ∧ out = ⟨Bytes.writeBool answer :: rest, alt⟩ := by
  rw [exec_op rfl]
  cases main with
  | nil => simp [execute?, onMain?, test?]
  | cons signature rest =>
    cases verdict : e.sigVerdict? key signature <;>
      simp [execute?, onMain?, test?, verdict, pushing, eq_comm]

theorem answersB_one : e.AnswersB (AnswerRel.ofLeaf e false (.one : Leaf κ Digest)) true
    (Script.ofLeaf context (.one : Leaf κ Digest)) where
  sound := by
    intro main alt out ran
    rw [Script.ofLeaf, exec_ofNumber] at ran
    cases ran
    exact ⟨true, [], main, _, rfl, ⟨rfl, rfl⟩, .writeBool true true, by rw [Bytes.writeBool_eq]; rfl⟩
  complete := by
    rintro answer taken rest alt ⟨rfl, rfl⟩
    refine ⟨_, .writeBool true true, ?_⟩
    rw [Script.ofLeaf, exec_ofNumber, Bytes.writeBool_eq]
    rfl

theorem answersB_zero : e.AnswersB (AnswerRel.ofLeaf e false (.zero : Leaf κ Digest)) true
    (Script.ofLeaf context (.zero : Leaf κ Digest)) where
  sound := by
    intro main alt out ran
    rw [Script.ofLeaf, exec_ofNumber] at ran
    cases ran
    exact ⟨false, [], main, _, rfl, ⟨rfl, rfl⟩, .writeBool true false, rfl⟩
  complete := by
    rintro answer taken rest alt ⟨rfl, rfl⟩
    exact ⟨_, .writeBool true false, exec_ofNumber 0 _⟩

theorem answersB_key (same : e.scheme = context.scheme) (k : κ) :
    e.AnswersB (AnswerRel.ofLeaf e false (.key k : Leaf κ Digest)) true
      (Script.ofLeaf context (.key k : Leaf κ Digest) ++ [.op .checkSig]) where
  sound := by
    intro main alt out ran
    rw [Script.ofLeaf, List.singleton_append, Script.pushKey, exec_cons_push, exec_checkSig] at ran
    obtain ⟨answer, signature, rest, rfl, verdict, rfl⟩ := ran
    exact ⟨answer, [signature], rest, _, rfl, ⟨signature, rfl, same ▸ verdict⟩,
      .writeBool true answer, rfl⟩
  complete := by
    rintro answer taken rest alt ⟨signature, rfl, verdict⟩
    refine ⟨_, .writeBool true answer, ?_⟩
    rw [Script.ofLeaf, List.singleton_append, Script.pushKey, exec_cons_push, exec_checkSig]
    exact ⟨answer, signature, rest, rfl, same ▸ verdict, rfl⟩

private theorem execute?_equalVerify (a b : Bytes) (rest alt : List Bytes) :
    e.execute? .equalVerify ⟨a :: b :: rest, alt⟩ = if a = b then some ⟨rest, alt⟩ else none := by
  by_cases same : a = b <;> simp [execute?, onMain?, test?, passing?, same]

private theorem execute?_dup (a : Bytes) (rest alt : List Bytes) :
    e.execute? .dup ⟨a :: rest, alt⟩ = some ⟨a :: a :: rest, alt⟩ :=
  rfl

private theorem execute?_size (a : Bytes) (rest alt : List Bytes) :
    e.execute? .size ⟨a :: rest, alt⟩ =
      some ⟨Bytes.writeNumber (a.length : Nat) :: a :: rest, alt⟩ :=
  rfl

private theorem execute?_hash (kind : HashKind) (a : Bytes) (rest alt : List Bytes) :
    e.execute? (Script.hashOpcode kind) ⟨a :: rest, alt⟩ = some ⟨kind.hash a :: rest, alt⟩ := by
  cases kind <;> simp only [Script.hashOpcode, execute?, onMain?, unary, Option.map_some,
    List.cons_append, List.nil_append]

/-- A revealed key is compared with the hash before its signature is checked. -/
private theorem exec_keyHash (k : κ) (main alt : List Bytes) {out : Stacks} :
    e.exec (Script.ofLeaf context (.keyHash k : Leaf κ Digest) ++ [.op .checkSig]) ⟨main, alt⟩ =
        some out ↔
      ∃ key rest, main = key :: rest ∧
        HashKind.hash .hash160 key = PublicKey.hash context.scheme k ∧
        e.exec [.op .checkSig] ⟨key :: rest, alt⟩ = some out := by
  simp only [Script.ofLeaf, List.cons_append, List.nil_append]
  rw [exec_cons_op rfl]
  cases main with
  | nil => simp [execute?, onMain?, unary]
  | cons key rest =>
    have hashed := execute?_hash (e := e) .hash160 key (key :: rest) alt
    rw [Script.hashOpcode] at hashed
    rw [execute?_dup, Option.bind_some, exec_cons_op rfl, hashed, Option.bind_some, exec_cons_push,
      exec_cons_op rfl, execute?_equalVerify]
    by_cases opened : HashKind.hash .hash160 key = PublicKey.hash context.scheme k
    · simp [opened]
    · simp [opened, Ne.symm opened]

theorem answersB_keyHash (same : e.scheme = context.scheme) (k : κ) :
    e.AnswersB (AnswerRel.ofLeaf e false (.keyHash k : Leaf κ Digest)) true
      (Script.ofLeaf context (.keyHash k : Leaf κ Digest) ++ [.op .checkSig]) where
  sound := by
    intro main alt out ran
    obtain ⟨key, below, rfl, opened, checked⟩ := (exec_keyHash k main alt).mp ran
    obtain ⟨answer, signature, rest, rfl, verdict, rfl⟩ := (exec_checkSig key below alt).mp checked
    exact ⟨answer, [key, signature], rest, _, rfl, ⟨key, signature, rfl, same ▸ opened, verdict⟩,
      .writeBool true answer, rfl⟩
  complete := by
    rintro answer taken rest alt ⟨key, signature, rfl, opened, verdict⟩
    refine ⟨_, .writeBool true answer, (exec_keyHash k _ alt).mpr ?_⟩
    exact ⟨key, signature :: rest, rfl, same ▸ opened,
      (exec_checkSig _ _ _).mpr ⟨answer, signature, rest, rfl, verdict, rfl⟩⟩

/-- A lock leaves its number, which need not be 1. -/
private theorem answersB_lock {value : Nat} (positive : 0 < value) (bounded : value ≤ 2 ^ 31)
    {opcode : Opcode} (plain : opcode.isPlain = true) {meets : Int → Bool}
    (tests : ∀ a rest alt, e.execute? opcode ⟨a :: rest, alt⟩ =
      a.readNumber.bind fun number => if meets number then some ⟨a :: rest, alt⟩ else none) :
    e.AnswersB (fun answer taken => answer = true ∧ taken = [] ∧ meets value = true) false
      [.ofNumber value, .op opcode] := by
  have runs (main alt : List Bytes) : e.exec [.ofNumber value, .op opcode] ⟨main, alt⟩ =
      if meets value then some ⟨Bytes.writeNumber value :: main, alt⟩ else none := by
    rw [exec_cons_ofNumber, exec_op plain, tests, Bytes.readNumber_writeNumber, if_pos (by omega)]
    rfl
  have denotes : Denotes false true (Bytes.writeNumber value) :=
    ⟨value, rfl, bounded, by simp [Nat.ne_of_gt positive], of_false_eq_true⟩
  constructor
  · intro main alt out ran
    rw [runs] at ran
    split at ran
    next met =>
      cases ran
      exact ⟨true, [], main, _, rfl, ⟨rfl, rfl, met⟩, denotes, rfl⟩
    next => cases ran
  · rintro answer taken rest alt ⟨rfl, rfl, met⟩
    exact ⟨_, denotes, (runs _ _).trans (if_pos met)⟩

theorem answersB_after (lock : AbsoluteLock) :
    e.AnswersB (AnswerRel.ofLeaf e false (.after lock : Leaf κ Digest)) false
      (Script.ofLeaf context (.after lock : Leaf κ Digest)) := by
  refine answersB_lock lock.pos lock.bounded rfl ?_
  intro a rest alt
  cases read : a.readNumber <;> simp [execute?, onMain?, unary, read]

theorem answersB_older (lock : RelativeLock) :
    e.AnswersB (AnswerRel.ofLeaf e false (.older lock : Leaf κ Digest)) false
      (Script.ofLeaf context (.older lock : Leaf κ Digest)) := by
  refine answersB_lock lock.pos (Nat.le_of_lt lock.bounded) rfl ?_
  intro a rest alt
  cases read : a.readNumber <;> simp [execute?, onMain?, unary, read]

private theorem exec_equal (a b : Bytes) (rest alt : List Bytes) :
    e.exec [.op .equal] ⟨a :: b :: rest, alt⟩ = some ⟨Bytes.writeBool (b == a) :: rest, alt⟩ := by
  rw [exec_op rfl, Bool.beq_comm]
  rfl

/-- The script of a hashlock looks at the size of the secret before it hashes it. -/
private theorem exec_digest (d : Digest) (main alt : List Bytes) {out : Stacks} :
    e.exec (Script.ofLeaf context (.digest d : Leaf κ Digest)) ⟨main, alt⟩ = some out ↔
      ∃ secret rest, main = secret :: rest ∧ secret.length = 32 ∧
        out = ⟨Bytes.writeBool (d.kind.hash secret == d.bytes) :: rest, alt⟩ := by
  have plain : (Script.hashOpcode d.kind).isPlain = true := by cases d.kind <;> rfl
  rw [Script.ofLeaf, exec_cons_op rfl]
  cases main with
  | nil => simp [execute?, onMain?, unary]
  | cons secret rest =>
    rw [execute?_size, Option.bind_some, exec_cons_ofNumber, exec_cons_op rfl, execute?_equalVerify]
    by_cases width : secret.length = 32
    · rw [if_pos (Bytes.writeNumber_inj.mpr width.symm), Option.bind_some, exec_cons_op plain,
        execute?_hash, Option.bind_some, exec_cons_push, exec_equal]
      simp [width, eq_comm]
    · rw [if_neg (Ne.symm width ∘ Bytes.writeNumber_inj.mp)]
      simp [width]

theorem answersB_digest (d : Digest) :
    e.AnswersB (AnswerRel.ofLeaf e false (.digest d : Leaf κ Digest)) true
      (Script.ofLeaf context (.digest d : Leaf κ Digest)) where
  sound := by
    intro main alt out ran
    obtain ⟨secret, rest, rfl, width, rfl⟩ := (exec_digest d main alt).mp ran
    exact ⟨_, [secret], rest, _, rfl, ⟨secret, rfl, width, rfl⟩, .writeBool true _, rfl⟩
  complete := by
    rintro answer taken rest alt ⟨secret, rfl, width, rfl⟩
    exact ⟨_, .writeBool true _, (exec_digest d _ alt).mpr ⟨secret, rest, rfl, width, rfl⟩⟩

private theorem exec_pushKeys (keys : List κ) (next : Script) (main alt : List Bytes) :
    e.exec (keys.map (Script.pushKey context) ++ next) ⟨main, alt⟩ =
      e.exec next ⟨(keys.map (PublicKey.pushed context.scheme)).reverse ++ main, alt⟩ := by
  induction keys generalizing main with
  | nil => rfl
  | cons key rest ih =>
    rw [List.map_cons, List.cons_append, Script.pushKey, exec_cons_push, ih]
    simp

theorem takeCounted?_eq_some {n : Nat} {main taken rest : List Bytes} :
    takeCounted? (Bytes.writeNumber n :: main) = some (taken, rest) ↔
      n < 2 ^ 39 ∧ main = taken ++ rest ∧ taken.length = n := by
  rw [takeCounted?, Bytes.readNumber_writeNumber]
  by_cases readable : n < 2 ^ 39
  · simp only [readable, if_true, Option.bind_eq_bind, Option.bind_some, Int.natCast_nonneg, true_and,
      Int.toNat_natCast, List.splitAt_eq]
    constructor
    · intro counted
      split at counted
      next enough =>
        cases counted
        exact ⟨(List.take_append_drop n main).symm, List.length_take_of_le enough⟩
      next => cases counted
    · rintro ⟨rfl, rfl⟩
      rw [if_pos (by simp)]
      simp
  · rw [if_neg readable]
    exact iff_of_false nofun fun all => readable all.1

/-- All the keys of a `multi` are taken from below their count. -/
theorem takeCounted?_keys (ks : Threshold κ multiCap) (main : List Bytes) :
    takeCounted? (Bytes.writeNumber ks.n ::
      ((ks.items.map (PublicKey.pushed context.scheme)).reverse ++ main)) =
        some ((ks.items.map (PublicKey.pushed context.scheme)).reverse, main) := by
  have few : ks.items.length ≤ 20 := ks.capped 20 rfl
  refine takeCounted?_eq_some.mpr ⟨?_, rfl, by simp [Threshold.n]⟩
  rw [Threshold.n]
  omega

/-- A `CHECKMULTISIG` takes the keys, as many signatures as it asks for, and one empty element. -/
private theorem exec_multi (same : e.scheme = .ecdsa) (ks : Threshold κ multiCap)
    (main alt : List Bytes) {out : Stacks} :
    e.exec (Script.ofLeaf context (.multi ks : Leaf κ Digest)) ⟨main, alt⟩ = some out ↔
      ∃ answer signatures rest, main = signatures ++ [] :: rest ∧ signatures.length = ks.k ∧
        e.verdict? (e.checkSigs signatures.reverse
          (ks.items.map (PublicKey.pushed context.scheme))) signatures = some answer ∧
        out = ⟨Bytes.writeBool answer :: rest, alt⟩ := by
  have readable : ks.k < 2 ^ 39 := by
    have := ks.capped 20 rfl
    have := ks.k_le
    omega
  have tests (main : List Bytes) : e.execute? .checkMultiSig ⟨main, alt⟩ =
      ((e.multiVerdict? main).map pushing).map (⟨·, alt⟩) := by
    simp [execute?, onMain?, test?, same]
  rw [Script.ofLeaf, List.cons_append, exec_cons_ofNumber, exec_pushKeys, exec_cons_ofNumber,
    exec_op rfl, tests]
  simp only [multiVerdict?, takeCounted?_keys, Option.bind_eq_bind, Option.bind_some, Option.map_eq_some_iff,
    Option.bind_eq_some_iff, Prod.exists, List.reverse_reverse]
  constructor
  · rintro ⟨_, ⟨answer, rest, ⟨signatures, below, counted, checked⟩, rfl⟩, rfl⟩
    obtain ⟨_, rfl, exact⟩ := takeCounted?_eq_some.mp counted
    split at checked
    next =>
      obtain ⟨passed, verdict, shape⟩ := Option.bind_eq_some_iff.mp checked
      cases shape
      exact ⟨answer, signatures, rest, rfl, exact, verdict, rfl⟩
    next => cases checked
  · rintro ⟨answer, signatures, rest, rfl, exact, verdict, rfl⟩
    refine ⟨_, ⟨answer, rest, ⟨signatures, [] :: rest, ?_, ?_⟩, rfl⟩, rfl⟩
    · exact takeCounted?_eq_some.mpr ⟨readable, rfl, exact⟩
    · simp [verdict]

theorem answersB_multi (same : e.scheme = context.scheme) (ecdsa : e.scheme = .ecdsa)
    (ks : Threshold κ multiCap) :
    e.AnswersB (AnswerRel.ofLeaf e false (.multi ks : Leaf κ Digest)) true
      (Script.ofLeaf context (.multi ks : Leaf κ Digest)) where
  sound := by
    intro main alt out ran
    obtain ⟨answer, signatures, rest, rfl, exact, verdict, rfl⟩ := (exec_multi ecdsa ks main alt).mp ran
    refine ⟨answer, signatures ++ [[]], rest, _, by simp, ⟨signatures, rfl, exact, ?_⟩,
      .writeBool true answer, rfl⟩
    rw [same]
    exact verdict
  complete := by
    rintro answer taken rest alt ⟨signatures, rfl, exact, verdict⟩
    rw [same] at verdict
    refine ⟨_, .writeBool true answer, (exec_multi ecdsa ks _ alt).mpr ?_⟩
    exact ⟨answer, signatures, rest, by simp, exact, verdict, rfl⟩

private theorem execute?_checkSigAdd (schnorr : e.scheme = .schnorr) {sum : Nat}
    (readable : sum < 2 ^ 39) (key signature : Bytes) (rest alt : List Bytes) :
    e.execute? .checkSigAdd ⟨key :: Bytes.writeNumber sum :: signature :: rest, alt⟩ =
      (e.sigVerdict? key signature).map fun passed =>
        ⟨Bytes.writeNumber (sum + passed.toNat : Nat) :: rest, alt⟩ := by
  simp only [execute?, onMain?, ternary, schnorr, if_true, Bytes.readNumber_writeNumber, readable]
  cases e.sigVerdict? key signature with
  | none => rfl
  | some passed => simp

/-- Each `CHECKSIGADD` takes one signature and adds to the count, which stays readable as there are
not too many keys. -/
private theorem exec_checkSigAdds (schnorr : e.scheme = .schnorr) (keys : List κ) {sum : Nat}
    (readable : sum + keys.length < 2 ^ 39) {main alt : List Bytes} {out : Stacks} :
    e.exec (keys.flatMap fun key => [Script.pushKey context key, .op .checkSigAdd])
        ⟨Bytes.writeNumber sum :: main, alt⟩ = some out ↔
      ∃ count taken rest, main = taken ++ rest ∧
        e.countSigs? (keys.map (PublicKey.pushed context.scheme)) taken = some count ∧
        out = ⟨Bytes.writeNumber (sum + count : Nat) :: rest, alt⟩ := by
  induction keys generalizing sum main with
  | nil =>
    simp only [List.map_nil, countSigs?_nil]
    constructor
    · intro ran
      cases ran
      exact ⟨0, [], main, rfl, ⟨rfl, rfl⟩, rfl⟩
    · rintro ⟨_, _, rest, rfl, ⟨rfl, rfl⟩, rfl⟩
      rfl
  | cons key keys ih =>
    rw [List.length_cons] at readable
    have step (passed : Bool) : sum + passed.toNat + keys.length < 2 ^ 39 := by
      have := Bool.toNat_le passed
      omega
    rw [List.flatMap_cons, List.cons_append, List.singleton_append, Script.pushKey, exec_cons_push,
      exec_cons_op rfl, List.map_cons]
    constructor
    · intro ran
      cases main with
      | nil => simp [execute?, onMain?, ternary] at ran
      | cons signature main =>
        rw [execute?_checkSigAdd schnorr (by omega), Option.bind_map,
          Option.bind_eq_some_iff] at ran
        obtain ⟨passed, verdict, ran⟩ := ran
        obtain ⟨count, taken, rest, rfl, counted, rfl⟩ := (ih (step passed)).mp ran
        refine ⟨passed.toNat + count, signature :: taken, rest, rfl, ?_, by rw [Nat.add_assoc]⟩
        exact countSigs?_cons.mpr ⟨passed, signature, taken, count, rfl, verdict, counted, rfl⟩
    · rintro ⟨_, _, rest, rfl, counted, rfl⟩
      obtain ⟨passed, signature, taken, count, rfl, verdict, further, rfl⟩ :=
        countSigs?_cons.mp counted
      rw [List.cons_append, execute?_checkSigAdd schnorr (by omega), verdict, Option.map_some,
        Option.bind_some]
      exact (ih (step passed)).mpr ⟨count, taken, rest, rfl, further, by rw [Nat.add_assoc]⟩

/-- A chain of checks takes a signature for each key and counts those that verify. -/
theorem exec_checkSigChain (schnorr : e.scheme = .schnorr) {keys : List κ}
    (nonempty : keys ≠ []) (readable : keys.length < 2 ^ 39) {main alt : List Bytes}
    {out : Stacks} :
    e.exec (Script.checkSigChain context keys) ⟨main, alt⟩ = some out ↔
      ∃ count taken rest, main = taken ++ rest ∧
        e.countSigs? (keys.map (PublicKey.pushed context.scheme)) taken = some count ∧
        out = ⟨Bytes.writeNumber count :: rest, alt⟩ := by
  obtain ⟨first, keys, rfl⟩ := List.exists_cons_of_ne_nil nonempty
  rw [List.length_cons] at readable
  have step (passed : Bool) : passed.toNat + keys.length < 2 ^ 39 := by
    have := Bool.toNat_le passed
    omega
  rw [Script.checkSigChain, List.cons_append, Script.pushKey, exec_cons_push,
    (e.balanced_op .checkSig rfl).exec_append_eq_some, List.map_cons]
  simp only [exec_checkSig]
  constructor
  · rintro ⟨_, ⟨passed, signature, below, rfl, verdict, rfl⟩, ran⟩
    rw [Bytes.writeBool_eq, exec_checkSigAdds schnorr keys (step passed)] at ran
    obtain ⟨count, taken, rest, rfl, counted, rfl⟩ := ran
    refine ⟨passed.toNat + count, signature :: taken, rest, rfl, ?_, rfl⟩
    exact countSigs?_cons.mpr ⟨passed, signature, taken, count, rfl, verdict, counted, rfl⟩
  · rintro ⟨_, _, rest, rfl, counted, rfl⟩
    obtain ⟨passed, signature, taken, count, rfl, verdict, further, rfl⟩ :=
      countSigs?_cons.mp counted
    refine ⟨_, ⟨passed, signature, taken ++ rest, rfl, verdict, rfl⟩, ?_⟩
    rw [Bytes.writeBool_eq, exec_checkSigAdds schnorr keys (step passed)]
    exact ⟨count, taken, rest, rfl, further, rfl⟩

private theorem exec_numEqual {sum k : Nat} (readable : sum < 2 ^ 39) (bounded : k < 2 ^ 39)
    (rest alt : List Bytes) :
    e.exec [.ofNumber k, .op .numEqual] ⟨Bytes.writeNumber sum :: rest, alt⟩ =
      some ⟨Bytes.writeBool (sum == k) :: rest, alt⟩ := by
  have same : ((k : Int) == (sum : Int)) = (sum == k) := by
    rw [Bool.eq_iff_iff, beq_iff_eq, beq_iff_eq, Int.natCast_inj, eq_comm]
  rw [exec_cons_ofNumber, exec_op rfl]
  simp only [execute?, onMain?, test?, Bytes.readNumber_writeNumber, if_pos readable, if_pos bounded]
  rw [← same]
  rfl

private theorem exec_multiA (schnorr : e.scheme = .schnorr) (ks : Threshold κ multiACap)
    (main alt : List Bytes) {out : Stacks} :
    e.exec (Script.ofLeaf context (.multiA ks : Leaf κ Digest)) ⟨main, alt⟩ = some out ↔
      ∃ count taken rest, main = taken ++ rest ∧
        e.countSigs? (ks.items.map (PublicKey.pushed context.scheme)) taken = some count ∧
        out = ⟨Bytes.writeBool (count == ks.k) :: rest, alt⟩ := by
  have few : ks.items.length ≤ 125000 := ks.capped 125000 rfl
  have enough := ks.k_le
  have nonempty : ks.items ≠ [] := List.ne_nil_of_length_pos (Nat.lt_of_lt_of_le ks.k_pos enough)
  rw [Script.ofLeaf, (e.balanced_checkSigChain context ks.items).exec_append_eq_some]
  simp only [exec_checkSigChain schnorr nonempty (by omega : ks.items.length < 2 ^ 39)]
  constructor
  · rintro ⟨_, ⟨count, taken, rest, rfl, counted, rfl⟩, compared⟩
    have bounded := (length_of_countSigs? counted).2
    rw [List.length_map] at bounded
    rw [exec_numEqual (by omega) (by omega)] at compared
    exact ⟨count, taken, rest, rfl, counted, (Option.some.inj compared).symm⟩
  · rintro ⟨count, taken, rest, rfl, counted, rfl⟩
    have bounded := (length_of_countSigs? counted).2
    rw [List.length_map] at bounded
    exact ⟨_, ⟨count, taken, rest, rfl, counted, rfl⟩, exec_numEqual (by omega) (by omega) rest alt⟩

theorem answersB_multiA (same : e.scheme = context.scheme) (schnorr : e.scheme = .schnorr)
    (ks : Threshold κ multiACap) :
    e.AnswersB (AnswerRel.ofLeaf e false (.multiA ks : Leaf κ Digest)) true
      (Script.ofLeaf context (.multiA ks : Leaf κ Digest)) where
  sound := by
    intro main alt out ran
    obtain ⟨count, taken, rest, rfl, counted, rfl⟩ := (exec_multiA schnorr ks main alt).mp ran
    rw [← same] at counted
    exact ⟨_, taken, rest, _, rfl, ⟨count, counted, rfl, of_false_eq_true⟩, .writeBool true _, rfl⟩
  complete := by
    rintro answer taken rest alt ⟨count, counted, rfl, _⟩
    rw [same] at counted
    exact ⟨_, .writeBool true _,
      (exec_multiA schnorr ks _ alt).mpr ⟨count, taken, rest, rfl, counted, rfl⟩⟩

end Evaluator

end LockScript
