import LockScript.Proofs.Signatures

/-! # What a run depends on

A run does not depend on signatures other than those that it takes, so evaluators that agree on these have
the same run.
-/

namespace LockScript

namespace Evaluator

/-- Evaluators that may only differ in signatures that are not among the elements. -/
structure Agrees (e e' : Evaluator) (elements : List Bytes) : Prop where
  scheme : e'.scheme = e.scheme
  meetsAfter : e'.meetsAfter = e.meetsAfter
  meetsOlder : e'.meetsOlder = e.meetsOlder
  nullFail : e'.nullFail = e.nullFail
  checkSig : ∀ element ∈ elements, ∀ key, e'.checkSig key element = e.checkSig key element

namespace Agrees

variable {e e' : Evaluator} {elements others : List Bytes}

theorem mono (agrees : e.Agrees e' elements) (fewer : ∀ element ∈ others, element ∈ elements) :
    e.Agrees e' others where
  scheme := agrees.scheme
  meetsAfter := agrees.meetsAfter
  meetsOlder := agrees.meetsOlder
  nullFail := agrees.nullFail
  checkSig element member := agrees.checkSig element (fewer element member)

theorem append (agrees : e.Agrees e' (elements ++ others)) :
    e.Agrees e' elements ∧ e.Agrees e' others :=
  ⟨agrees.mono fun _ => List.mem_append_left _, agrees.mono fun _ => List.mem_append_right _⟩

theorem verdict?_eq (agrees : e.Agrees e' elements) (passed : Bool) (signatures : List Bytes) :
    e'.verdict? passed signatures = e.verdict? passed signatures := by
  rw [verdict?, verdict?, agrees.nullFail]

theorem sigVerdict?_eq (agrees : e.Agrees e' elements) {signature : Bytes}
    (member : signature ∈ elements) (key : Bytes) :
    e'.sigVerdict? key signature = e.sigVerdict? key signature := by
  rw [sigVerdict?, sigVerdict?, agrees.verdict?_eq, agrees.checkSig signature member]

theorem checkSigs_eq (agrees : e.Agrees e' elements) {signatures : List Bytes}
    (fewer : ∀ signature ∈ signatures, signature ∈ elements) (keys : List Bytes) :
    e'.checkSigs signatures keys = e.checkSigs signatures keys := by
  induction keys generalizing signatures with
  | nil => cases signatures <;> rfl
  | cons key keys ih =>
    cases signatures with
    | nil => rfl
    | cons signature signatures =>
      obtain ⟨member, rest⟩ := List.forall_mem_cons.mp fewer
      rw [checkSigs, checkSigs, agrees.checkSig signature member, ih rest, ih fewer]

theorem countSigs?_eq (agrees : e.Agrees e' elements) (keys : List Bytes) :
    e'.countSigs? keys elements = e.countSigs? keys elements := by
  induction keys generalizing elements with
  | nil => cases elements <;> rfl
  | cons key keys ih =>
    cases elements with
    | nil => rfl
    | cons signature signatures =>
      rw [countSigs?, countSigs?, agrees.sigVerdict?_eq List.mem_cons_self,
        ih (agrees.mono fun _ => List.mem_cons_of_mem _)]

end Agrees

end Evaluator

section Agreement

variable {κ α : Type} [PublicKey κ] {e e' : Evaluator} {regular answer : Bool} {taken : List Bytes}

private theorem ofLeaf_of_agrees {l : Leaf κ Digest}
    (run : AnswerRel.ofLeaf e regular l answer taken) (agrees : e.Agrees e' taken) :
    AnswerRel.ofLeaf e' regular l answer taken := by
  cases l with
  | one | zero | digest d => exact run
  | after lock => exact ⟨run.1, run.2.1, agrees.meetsAfter ▸ run.2.2⟩
  | older lock => exact ⟨run.1, run.2.1, agrees.meetsOlder ▸ run.2.2⟩
  | key k =>
    obtain ⟨signature, rfl, verdict⟩ := run
    refine ⟨signature, rfl, ?_⟩
    rwa [agrees.sigVerdict?_eq List.mem_cons_self, agrees.scheme]
  | keyHash k =>
    obtain ⟨key, signature, rfl, opened, verdict⟩ := run
    refine ⟨key, signature, rfl, ?_, ?_⟩
    · rw [agrees.scheme]
      exact opened
    · rwa [agrees.sigVerdict?_eq (List.mem_cons_of_mem _ List.mem_cons_self)]
  | multi ks =>
    obtain ⟨signatures, rfl, exact, verdict⟩ := run
    refine ⟨signatures, rfl, exact, ?_⟩
    rwa [agrees.verdict?_eq, agrees.scheme, agrees.checkSigs_eq]
    intro signature member
    exact List.mem_append_left _ (List.mem_reverse.mp member)
  | multiA ks =>
    obtain ⟨count, counted, same, exact⟩ := run
    refine ⟨count, ?_, same, exact⟩
    rwa [agrees.scheme, agrees.countSigs?_eq]

/-- A run does not depend on signatures that are not taken. -/
theorem Condition.Answers.of_agrees {t : Condition κ Digest α}
    (run : t.Answers e regular answer taken) (agrees : e.Agrees e' taken) :
    t.Answers e' regular answer taken := by
  induction t using Condition.induct generalizing answer taken with
  | leaf note l =>
    rw [answers_leaf] at run ⊢
    exact ofLeaf_of_agrees run agrees
  | wrap note w x ih =>
    rw [answers_wrap] at run ⊢
    cases w with
    | alt | swap | check | zeroNotEqual => exact ih run agrees
    | dupIf =>
      refine run.imp_right ?_
      rintro ⟨yes, rfl, below⟩
      exact ⟨yes, rfl, ih below (agrees.mono (List.forall_mem_nil _))⟩
    | verify => exact ⟨run.1, ih run.2 agrees⟩
    | nonzero =>
      refine run.imp_right ?_
      rintro ⟨top, rest, shape, nonempty, short, below, exact⟩
      exact ⟨top, rest, shape, nonempty, short, ih below agrees, exact⟩
  | pair note op x y ihX ihY =>
    rw [answers_pair] at run ⊢
    have both {first second : Bool} {taken : List Bytes} (agrees : e.Agrees e' taken)
        (run : AnswerRel.Both (x.Answers e regular) (y.Answers e regular) first second taken) :
        AnswerRel.Both (x.Answers e' regular) (y.Answers e' regular) first second taken := by
      obtain ⟨upper, lower, rfl, left, right⟩ := run
      exact ⟨upper, lower, rfl, ihX left agrees.append.1, ihY right agrees.append.2⟩
    cases op with
    | andV => exact ⟨both agrees run.1, run.2⟩
    | andB | orB =>
      obtain ⟨first, second, parts, same, exact⟩ := run
      exact ⟨first, second, both agrees parts, same, exact⟩
    | orD | orC => exact run.imp (fun ⟨yes, left⟩ => ⟨yes, ihX left agrees⟩) (both agrees)
    | orI =>
      obtain ⟨rest, ⟨rfl, left⟩ | ⟨rfl, right⟩⟩ := run
      · exact ⟨rest, .inl ⟨rfl, ihX left (agrees.mono fun _ => List.mem_cons_of_mem _)⟩⟩
      · exact ⟨rest, .inr ⟨rfl, ihY right (agrees.mono fun _ => List.mem_cons_of_mem _)⟩⟩
  | andOr note x y z ihX ihY ihZ =>
    rw [answers_andOr] at run ⊢
    refine run.imp ?_ ?_
    · rintro ⟨⟨upper, lower, rfl, left, right⟩, exact⟩
      exact ⟨⟨upper, lower, rfl, ihX left agrees.append.1, ihY right agrees.append.2⟩, exact⟩
    · rintro ⟨upper, lower, rfl, left, right⟩
      exact ⟨upper, lower, rfl, ihX left agrees.append.1, ihZ right agrees.append.2⟩
  | thresh note k items ih =>
    rw [answers_thresh] at run ⊢
    obtain ⟨parts, runs, rfl, readable, same, exact⟩ := run
    refine ⟨parts, ?_, rfl, readable, same, exact⟩
    rw [List.forall₂_map_left_iff] at runs ⊢
    exact forall₂_imp_of_mem (fun x member part among below => ih x member below
      (agrees.mono fun element within => List.mem_flatMap.mpr ⟨part, among, within⟩)) runs

end Agreement

end LockScript
