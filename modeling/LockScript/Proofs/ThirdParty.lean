import LockScript.Proofs.Agreement
import LockScript.Proofs.Policy

/-! # Third parties

Who has seen a witness can put together others, but has no signatures except those in it, and nobody
relays a check that fails with a signature. What can be told of signatures alone is told here: a run
only takes those by keys of its condition, and a regular no takes none.
-/

namespace LockScript

namespace Evaluator

/-- The rules for third parties who have seen a witness: only the signatures in it verify, and a
failing check aborts unless its signature is empty. -/
def thirdParty (e : Evaluator) (witness : List Bytes) : Evaluator :=
  { e with
    verifies := fun key signature => witness.contains signature && e.verifies key signature
    nullFail := true }

theorem checkSig_thirdParty {e : Evaluator} {witness : List Bytes} {key signature : Bytes} :
    (e.thirdParty witness).checkSig key signature = true ↔
      signature ∈ witness ∧ e.checkSig key signature = true := by
  simp only [checkSig, thirdParty, Bool.and_eq_true, List.contains_iff_mem]
  tauto

/-- On the witness itself third parties see what everyone does. -/
theorem agrees_thirdParty (e : Evaluator) (witness : List Bytes) :
    ({ e with nullFail := true } : Evaluator).Agrees (e.thirdParty witness) witness where
  scheme := rfl
  meetsAfter := rfl
  meetsOlder := rfl
  nullFail := rfl
  checkSig signature member key := by
    rw [Bool.eq_iff_iff, checkSig_thirdParty]
    exact and_iff_right member

variable {κ : Type} [PublicKey κ] (e : Evaluator)

/-- Whether an element is a signature by one of the keys. -/
def SignedBy (keys : List κ) (element : Bytes) : Prop :=
  ∃ key ∈ keys, e.checkSig (PublicKey.pushed e.scheme key) element = true

/-- Signatures are told apart: each key has one at most, no two keys share one, and none looks like
anything else that a witness holds. -/
structure TellsApart (keys : List κ) : Prop where
  sole : ∀ key ∈ keys, ∀ signature signature',
    e.checkSig (PublicKey.pushed e.scheme key) signature = true →
      e.checkSig (PublicKey.pushed e.scheme key) signature' = true → signature = signature'
  apart : keys.Pairwise fun key other => ∀ signature,
    e.checkSig (PublicKey.pushed e.scheme key) signature = true →
      e.checkSig (PublicKey.pushed e.scheme other) signature = false
  plain : ∀ signature, e.SignedBy keys signature → signature ≠ [1] ∧ signature.length ≠ 32 ∧
    ∀ key ∈ keys, signature ≠ PublicKey.pushed e.scheme key

variable {e} {keys others : List κ} {element : Bytes}

theorem SignedBy.ne_nil (signed : e.SignedBy keys element) : element ≠ [] := by
  obtain ⟨key, _, checked⟩ := signed
  exact ne_nil_of_checkSig checked

theorem SignedBy.mono (signed : e.SignedBy keys element) (more : ∀ key ∈ keys, key ∈ others) :
    e.SignedBy others element := by
  obtain ⟨key, member, checked⟩ := signed
  exact ⟨key, more key member, checked⟩

theorem SignedBy.left (signed : e.SignedBy keys element) : e.SignedBy (keys ++ others) element :=
  signed.mono fun _ => List.mem_append_left others

theorem SignedBy.right (signed : e.SignedBy others element) : e.SignedBy (keys ++ others) element :=
  signed.mono fun _ => List.mem_append_right keys

theorem TellsApart.sublist (tells : e.TellsApart keys) (fewer : others.Sublist keys) :
    e.TellsApart others where
  sole key member := tells.sole key (fewer.subset member)
  apart := tells.apart.sublist fewer
  plain signature signed := by
    obtain ⟨one, width, revealed⟩ := tells.plain signature (signed.mono fun _ => (fewer.subset ·))
    exact ⟨one, width, fun key member => revealed key (fewer.subset member)⟩

/-- Different parts of a condition share no signature. -/
theorem TellsApart.not_signedBy (tells : e.TellsApart (keys ++ others))
    (signed : e.SignedBy keys element) : ¬e.SignedBy others element := by
  rintro ⟨other, among, checked'⟩
  obtain ⟨key, member, checked⟩ := signed
  have apart := (List.pairwise_append.mp tells.apart).2.2 key member other among element checked
  exact Bool.false_ne_true (apart.symm.trans checked')

theorem OpensOnly.mono {elements fewer : List Bytes} (opens : e.OpensOnly elements keys)
    (sub : ∀ element ∈ fewer, element ∈ elements) (within : ∀ key ∈ others, key ∈ keys) :
    e.OpensOnly fewer others :=
  fun element member key among => opens element (sub element member) key (within key among)

end Evaluator

variable {κ α : Type} [PublicKey κ] {e : Evaluator} {regular answer : Bool} {taken : List Bytes}
  {keys : List κ}

/-- What is taken by a leaf that is a signature is one by a key of the leaf, and not part of a
regular no. -/
private theorem Leaf.signedBy_of_mem {l : Leaf κ Digest}
    (run : AnswerRel.ofLeaf e regular l answer taken) (strict : e.nullFail = true)
    (tells : e.TellsApart keys) (opens : e.OpensOnly taken keys)
    (own : ∀ key ∈ l.keys, key ∈ keys) {element : Bytes} (member : element ∈ taken)
    (signed : e.SignedBy keys element) :
    e.SignedBy l.keys element ∧ (regular = true → answer = true) := by
  obtain ⟨_, width, revealed⟩ := tells.plain element signed
  have checked {key signature : Bytes} {answer : Bool} (nonempty : signature ≠ [])
      (verdict : e.sigVerdict? key signature = some answer) :
      answer = true ∧ e.checkSig key signature = true := by
    obtain ⟨same, clean⟩ := Evaluator.sigVerdict?_eq_some.mp verdict
    cases answer with
    | true => exact ⟨rfl, same.symm⟩
    | false => exact absurd (clean strict rfl) nonempty
  cases l with
  | one | zero =>
    obtain rfl := run.2
    cases member
  | after lock | older lock =>
    obtain rfl := run.2.1
    cases member
  | key k =>
    obtain ⟨signature, rfl, verdict⟩ := run
    obtain rfl := List.mem_singleton.mp member
    obtain ⟨yes, checked⟩ := checked signed.ne_nil verdict
    exact ⟨⟨k, List.mem_cons_self, checked⟩, fun _ => yes⟩
  | keyHash k =>
    obtain ⟨key, signature, rfl, opened, verdict⟩ := run
    obtain rfl := opens key List.mem_cons_self k (own k List.mem_cons_self) opened
    rcases List.mem_cons.mp member with rfl | member
    · exact absurd rfl (revealed k (own k List.mem_cons_self))
    · obtain rfl := List.mem_singleton.mp member
      obtain ⟨yes, checked⟩ := checked signed.ne_nil verdict
      exact ⟨⟨k, List.mem_cons_self, checked⟩, fun _ => yes⟩
  | digest d =>
    obtain ⟨secret, rfl, exact, _⟩ := run
    obtain rfl := List.mem_singleton.mp member
    exact absurd exact width
  | multi ks =>
    obtain ⟨signatures, rfl, _, verdict⟩ := run
    obtain ⟨placed, clean⟩ := Evaluator.verdict?_eq_some.mp verdict
    have among : element ∈ signatures :=
      (List.mem_append.mp member).resolve_right fun dummy =>
        signed.ne_nil (List.mem_singleton.mp dummy)
    cases answer with
    | false => exact absurd (clean strict rfl element among) signed.ne_nil
    | true =>
      obtain ⟨chosen, sublist, each⟩ := Evaluator.checkSigs_iff.mp placed.symm
      obtain ⟨key, within, checked⟩ := exists_of_mem_forall₂ each.flip (List.mem_reverse.mpr among)
      obtain ⟨own, listed, rfl⟩ := List.mem_map.mp (sublist.subset within)
      exact ⟨⟨own, listed, checked⟩, fun _ => rfl⟩
  | multiA ks =>
    obtain ⟨count, counted, outcome, exact⟩ := run
    obtain ⟨places, verdicts, rfl, rfl⟩ := Evaluator.countSigs?_eq_some.mp counted
    obtain ⟨place, among, rfl⟩ := List.mem_map.mp member
    obtain ⟨key, within, verdict⟩ := exists_of_mem_forall₂ verdicts among
    obtain ⟨own, listed, rfl⟩ := List.mem_map.mp within
    obtain ⟨yes, checked⟩ := checked signed.ne_nil verdict
    refine ⟨⟨own, listed, checked⟩, fun strictly => ?_⟩
    have some : 0 < places.countP Prod.fst := List.countP_pos_iff.mpr ⟨place, among, yes⟩
    rw [outcome, (exact strictly).resolve_left (Nat.ne_of_gt some), beq_self_eq_true]

/-- What is taken by a run that is a signature is one by a key of its condition, and not part of a
regular no. -/
theorem Condition.Answers.signedBy_of_mem {t : Condition κ Digest α}
    (run : t.Answers e regular answer taken) (strict : e.nullFail = true)
    (tells : e.TellsApart keys) (opens : e.OpensOnly taken keys)
    (own : ∀ key ∈ t.keys, key ∈ keys) {element : Bytes} (member : element ∈ taken)
    (signed : e.SignedBy keys element) :
    e.SignedBy t.keys element ∧ (regular = true → answer = true) := by
  have plain := (tells.plain element signed).1
  induction t using Condition.induct generalizing answer taken with
  | leaf note l =>
    rw [answers_leaf] at run
    rw [keys_leaf] at own ⊢
    exact Leaf.signedBy_of_mem run strict tells opens own member signed
  | wrap note w x ih =>
    rw [answers_wrap] at run
    rw [keys_wrap] at own ⊢
    cases w with
    | alt | swap | check | zeroNotEqual => exact ih run opens own member
    | dupIf =>
      obtain ⟨_, rfl⟩ | ⟨_, rfl, _⟩ := run
      · exact absurd (List.mem_singleton.mp member) signed.ne_nil
      · exact absurd (List.mem_singleton.mp member) plain
    | verify => exact ⟨(ih run.2 opens own member).1, fun _ => run.1⟩
    | nonzero =>
      obtain ⟨_, rfl⟩ | ⟨top, rest, rfl, _, _, run, exact⟩ := run
      · exact absurd (List.mem_singleton.mp member) signed.ne_nil
      · exact ⟨(ih run opens own member).1, exact⟩
  | pair note op x y ihX ihY =>
    rw [answers_pair] at run
    rw [keys_pair] at own ⊢
    obtain ⟨ownX, ownY⟩ := List.forall_mem_append.mp own
    -- The element was taken by one of the two children, which then did not answer a regular no.
    have both {first second : Bool} {taken : List Bytes}
        (run : AnswerRel.Both (x.Answers e regular) (y.Answers e regular) first second taken)
        (opens : e.OpensOnly taken keys) (member : element ∈ taken) :
        e.SignedBy (x.keys ++ y.keys) element ∧
          (regular = true → first = true ∨ second = true) := by
      obtain ⟨upper, lower, rfl, left, right⟩ := run
      rcases List.mem_append.mp member with member | member
      · obtain ⟨signed, yes⟩ := ihX left
          (opens.mono (fun _ => List.mem_append_left _) fun _ => id) ownX member
        exact ⟨signed.left, fun strictly => .inl (yes strictly)⟩
      · obtain ⟨signed, yes⟩ := ihY right
          (opens.mono (fun _ => List.mem_append_right _) fun _ => id) ownY member
        exact ⟨signed.right, fun strictly => .inr (yes strictly)⟩
    cases op with
    | andV => exact ⟨(both run.1 opens member).1, run.2⟩
    | andB =>
      obtain ⟨first, second, parts, rfl, exact⟩ := run
      obtain ⟨signed, yes⟩ := both parts opens member
      refine ⟨signed, fun strictly => ?_⟩
      obtain rfl := exact strictly
      simpa using yes strictly
    | orB =>
      obtain ⟨first, second, parts, rfl, exact⟩ := run
      obtain ⟨signed, yes⟩ := both parts opens member
      exact ⟨signed, fun strictly => by simpa using yes strictly⟩
    | orD | orC =>
      obtain ⟨yes, run⟩ | parts := run
      · exact ⟨(ihX run opens ownX member).1.left, fun _ => yes⟩
      · obtain ⟨signed, yes⟩ := both parts opens member
        exact ⟨signed, fun strictly => (yes strictly).resolve_left Bool.false_ne_true⟩
    | orI =>
      obtain ⟨rest, ⟨rfl, run⟩ | ⟨rfl, run⟩⟩ := run
      · have below := (List.mem_cons.mp member).resolve_left plain
        obtain ⟨signed, yes⟩ := ihX run
          (opens.mono (fun _ => List.mem_cons_of_mem _) fun _ => id) ownX below
        exact ⟨signed.left, yes⟩
      · have below := (List.mem_cons.mp member).resolve_left signed.ne_nil
        obtain ⟨signed, yes⟩ := ihY run
          (opens.mono (fun _ => List.mem_cons_of_mem _) fun _ => id) ownY below
        exact ⟨signed.right, yes⟩
  | andOr note x y z ihX ihY ihZ =>
    rw [answers_andOr] at run
    rw [keys_andOr] at own ⊢
    obtain ⟨own, ownZ⟩ := List.forall_mem_append.mp own
    obtain ⟨ownX, ownY⟩ := List.forall_mem_append.mp own
    obtain ⟨⟨upper, lower, rfl, left, right⟩, exact⟩ | ⟨upper, lower, rfl, left, right⟩ := run <;>
      have opensUpper := opens.mono (fun _ => List.mem_append_left lower) fun _ => id <;>
      have opensLower := opens.mono (fun _ => List.mem_append_right upper) fun _ => id <;>
      rcases List.mem_append.mp member with member | member
    · exact ⟨(ihX left opensUpper ownX member).1.left.left, exact⟩
    · exact ⟨(ihY right opensLower ownY member).1.right.left, exact⟩
    · obtain ⟨signed, yes⟩ := ihX left opensUpper ownX member
      exact ⟨signed.left.left, fun strictly => of_false_eq_true (yes strictly)⟩
    · obtain ⟨signed, yes⟩ := ihZ right opensLower ownZ member
      exact ⟨signed.right, yes⟩
  | thresh note k items ih =>
    rw [answers_thresh] at run
    rw [keys_thresh] at own ⊢
    obtain ⟨parts, runs, rfl, _, rfl, exact⟩ := run
    rw [List.forall₂_map_left_iff] at runs
    obtain ⟨part, among, within⟩ := List.mem_flatMap.mp member
    obtain ⟨x, listed, run⟩ := exists_of_mem_forall₂ runs among
    have ownX (key : κ) (member : key ∈ x.keys) : key ∈ items.flatMap Condition.keys :=
      List.mem_flatMap.mpr ⟨x, listed, member⟩
    obtain ⟨signed, yes⟩ := ih x listed run
      (opens.mono (fun _ taken => List.mem_flatMap.mpr ⟨part, among, taken⟩) fun _ => id)
      (fun key member => own key (ownX key member)) within
    refine ⟨signed.mono ownX, fun strictly => ?_⟩
    have some : 0 < parts.countP Prod.fst := List.countP_pos_iff.mpr ⟨part, among, yes strictly⟩
    rw [(exact strictly).resolve_left (Nat.ne_of_gt some), beq_self_eq_true]

end LockScript
