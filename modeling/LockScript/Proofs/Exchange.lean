import Mathlib.Data.List.Chain
import Mathlib.Data.List.Nodup
import Mathlib.Data.List.Pairwise
import Mathlib.Data.List.Perm.Subperm
import LockScript.Proofs.FreeChoice
import LockScript.Proofs.Sanity

/-! # Witnesses that cannot be exchanged

A third party who has seen a witness knows its signatures and no others, and may know every secret.
If each dissatisfaction in the witness is the one that the type of its condition stands for, then the
script accepts no other witness from that third party.

The search is not bound to those dissatisfactions: an `or_i` is dissatisfied through the branch where
that is cheaper, be it by a signature. The witness can then be exchanged for one without it.
-/

namespace LockScript

open Material (secondAndFourthWithSecret)

/-- Answers that only hold where marks do, and as often, are the marks. -/
theorem eq_of_forall₂_countP {marks answers : List Bool}
    (imp : List.Forall₂ (fun mark answer => answer = true → mark = true) marks answers)
    (enough : marks.countP id ≤ answers.countP id) : answers = marks := by
  induction imp with
  | nil => rfl
  | @cons mark answer marks answers head below ih =>
    have fewer : answers.countP id ≤ marks.countP id :=
      countP_le_of_forall₂ below fun _ _ _ _ imp => imp
    rw [List.countP_cons, List.countP_cons] at enough
    cases answer with
    | true =>
      obtain rfl := head rfl
      rw [ih (Nat.le_of_add_le_add_right enough)]
    | false =>
      cases mark with
      | true => exact absurd enough (by simpa using Nat.lt_succ_of_le fewer)
      | false => rw [ih (by simpa using enough)]

section Pairing

variable {α β γ : Type} {items : List α} {others : List β} {others' : List γ}

theorem forall₂_and {R S : α → β → Prop} (first : List.Forall₂ R items others)
    (second : List.Forall₂ S items others) : List.Forall₂ (fun x y => R x y ∧ S x y) items others := by
  induction first with
  | nil => exact .nil
  | cons head _ ih =>
    cases second with
    | cons head' second => exact .cons ⟨head, head'⟩ (ih second)

/-- Lists that are related to a third are related to each other. -/
theorem forall₂_join {R : α → β → Prop} {S : α → γ → Prop} {T : β → γ → Prop}
    (first : List.Forall₂ R items others) (second : List.Forall₂ S items others')
    (join : ∀ x ∈ items, ∀ y z, R x y → S x z → T y z) : List.Forall₂ T others others' := by
  induction first generalizing others' with
  | nil =>
    cases second
    exact .nil
  | cons head _ ih =>
    cases second with
    | cons head' second =>
      obtain ⟨here, later⟩ := List.forall_mem_cons.mp join
      exact .cons (here _ _ head head') (ih second later)

/-- Marked items that are equal where their marks are, under equal marks. -/
theorem eq_of_marks {α : Type} {parts parts' : List (Bool × α)}
    (marks : parts'.map Prod.fst = parts.map Prod.fst)
    (each : List.Forall₂ (fun part part' => part'.1 = part.1 → part' = part) parts parts') :
    parts' = parts := by
  induction each with
  | nil => rfl
  | cons head _ ih =>
    obtain ⟨first, rest⟩ := List.cons.inj marks
    rw [head first, ih rest]

end Pairing

theorem sublist_flatMap_of_mem {α β : Type} {f : α → List β} {items : List α} {x : α}
    (member : x ∈ items) : (f x).Sublist (items.flatMap f) := by
  obtain ⟨before, after, rfl⟩ := List.append_of_mem member
  rw [List.flatMap_append, List.flatMap_cons]
  exact (List.sublist_append_left _ _).trans (List.sublist_append_right _ _)

namespace Evaluator

variable {κ : Type} [PublicKey κ] {e : Evaluator} {keys chosen chosen' : List κ}
  {signature : Bytes} {signatures signatures' : List Bytes}

theorem TellsApart.eq_of_checkSig (tells : e.TellsApart keys) {key other : κ} (member : key ∈ keys)
    (among : other ∈ keys) (checked : e.checkSig (PublicKey.pushed e.scheme key) signature = true)
    (checked' : e.checkSig (PublicKey.pushed e.scheme other) signature = true) : key = other := by
  by_contra different
  have symmetric : Std.Symm fun key other : κ => ∀ signature,
      e.checkSig (PublicKey.pushed e.scheme key) signature = true →
        e.checkSig (PublicKey.pushed e.scheme other) signature = false := by
    refine ⟨fun key other apart signature checked => ?_⟩
    by_contra passes
    exact Bool.false_ne_true
      ((apart signature (Bool.of_not_eq_false passes)).symm.trans checked)
  have apart := tells.apart.forall member among different signature checked
  exact Bool.false_ne_true (apart.symm.trans checked')

/-- No key that has a signature is listed twice. -/
theorem TellsApart.nodup (tells : e.TellsApart keys) (sublist : chosen.Sublist keys)
    (signed : ∀ key ∈ chosen, ∃ signature,
      e.checkSig (PublicKey.pushed e.scheme key) signature = true) : chosen.Nodup := by
  refine (tells.apart.sublist sublist).imp_of_mem fun {key other} member _ apart same => ?_
  obtain ⟨signature, checked⟩ := signed key member
  rw [← same] at apart
  exact Bool.false_ne_true ((apart signature checked).symm.trans checked)

/-- There is one way to choose so many signatures among known ones and put them in key order. -/
theorem TellsApart.signatures_eq (tells : e.TellsApart keys) (sublist : chosen.Sublist keys)
    (sublist' : chosen'.Sublist keys)
    (each : List.Forall₂ (fun signature key =>
      e.checkSig (PublicKey.pushed e.scheme key) signature = true) signatures chosen)
    (each' : List.Forall₂ (fun signature key =>
      e.checkSig (PublicKey.pushed e.scheme key) signature = true) signatures' chosen')
    (width : signatures'.length = signatures.length)
    (known : ∀ signature ∈ signatures', signature ∈ signatures) : signatures' = signatures := by
  classical
  have signed : ∀ key ∈ chosen, ∃ signature ∈ signatures,
      e.checkSig (PublicKey.pushed e.scheme key) signature = true :=
    fun key member => exists_of_mem_forall₂ each member
  -- Whose signature is known is among the chosen ones.
  have within : ∀ key ∈ chosen', key ∈ chosen := by
    intro key member
    obtain ⟨signature, among, checked⟩ := exists_of_mem_forall₂ each' member
    obtain ⟨other, listed, checked'⟩ := exists_of_mem_forall₂ each.flip (known signature among)
    rwa [tells.eq_of_checkSig (sublist'.subset member) (sublist.subset listed) checked checked']
  have filtered {some : List κ} (below : some.Sublist keys) (inside : ∀ key ∈ some, key ∈ chosen)
      (exact : some.length = chosen.length) : some = keys.filter (· ∈ chosen) := by
    have fits : some.Sublist (keys.filter (· ∈ chosen)) := by
      have kept := below.filter (· ∈ chosen)
      rwa [List.filter_eq_self.mpr (by simpa using inside)] at kept
    refine fits.eq_of_length_le ?_
    have distinct : (keys.filter (· ∈ chosen)).Nodup :=
      tells.nodup List.filter_sublist fun key member =>
        let ⟨signature, _, checked⟩ := signed key (by simpa using (List.mem_filter.mp member).2)
        ⟨signature, checked⟩
    rw [exact]
    exact (List.subperm_of_subset distinct fun key member => by
      simpa using (List.mem_filter.mp member).2).length_le
  have same : chosen' = chosen := by
    have exact : chosen'.length = chosen.length := by
      rw [← each'.length_eq, ← each.length_eq, width]
    rw [filtered sublist' within exact]
    exact (filtered sublist (fun _ => id) rfl).symm
  subst same
  exact eq_of_forall₂ each'.flip each.flip fun key member signature signature' checked checked' =>
    tells.sole key (sublist.subset member) _ _ checked checked'

/-- What anyone can put into a witness is no signature. -/
theorem Public.not_signedBy {element : Bytes} (revealed : e.Public keys element)
    (tells : e.TellsApart keys) : ¬e.SignedBy keys element := by
  intro signed
  obtain ⟨one, _, pushed⟩ := tells.plain element signed
  obtain rfl | rfl | ⟨key, member, rfl⟩ := revealed
  · exact signed.ne_nil rfl
  · exact one rfl
  · exact pushed key member rfl

/-- There is one way to place so many signatures among known ones, each at its own key. -/
theorem TellsApart.places_eq (strict : e.nullFail = true) (tells : e.TellsApart keys)
    {places places' : List (Bool × Bytes)}
    (each : List.Forall₂ (fun key place =>
      e.sigVerdict? (PublicKey.pushed e.scheme key) place.2 = some place.1) keys places)
    (each' : List.Forall₂ (fun key place =>
      e.sigVerdict? (PublicKey.pushed e.scheme key) place.2 = some place.1) keys places')
    (known : ∀ place ∈ places', place.1 = true → place.2 ∈ places.map Prod.snd)
    (enough : places.countP Prod.fst ≤ places'.countP Prod.fst) : places' = places := by
  have empty {key : κ} {place : Bool × Bytes} (failed : place.1 = false)
      (verdict : e.sigVerdict? (PublicKey.pushed e.scheme key) place.2 = some place.1) :
      place.2 = [] :=
    (sigVerdict?_eq_some.mp verdict).2 strict failed
  -- A place that holds a signature holds it for its own key.
  have marked : List.Forall₂ (fun place place' : Bool × Bytes => place'.1 = true → place.1 = true)
      places places' := by
    clear enough
    induction each generalizing places' with
    | nil =>
      cases each'
      exact .nil
    | @cons key place keys places verdict each ih =>
      cases each' with
      | @cons _ place' _ places' verdict' each' =>
        have signedBelow {signature : Bytes} (nonempty : signature ≠ [])
            (member : signature ∈ places.map Prod.snd) : e.SignedBy keys signature := by
          obtain ⟨other, among, rfl⟩ := List.mem_map.mp member
          obtain ⟨listed, within, verdict⟩ := exists_of_mem_forall₂ each among
          have passed : other.1 = true := by
            by_contra failed
            exact nonempty (empty (Bool.eq_false_iff.mpr failed) verdict)
          rw [passed] at verdict
          exact ⟨listed, within, sigVerdict?_true.mp verdict⟩
        obtain ⟨first, rest⟩ := List.forall_mem_cons.mp known
        refine .cons (fun passed => ?_)
          (ih (tells.sublist (List.sublist_cons_self key keys)) each' fun other among passed => ?_)
        · rw [passed] at verdict'
          have checked := sigVerdict?_true.mp verdict'
          rcases List.mem_cons.mp (first passed) with same | below
          · by_contra failed
            rw [same, empty (Bool.eq_false_iff.mpr failed) verdict] at checked
            cases checked
          · exact absurd (signedBelow (ne_nil_of_checkSig checked) below)
              (tells.not_signedBy
                (show e.SignedBy [key] _ from ⟨key, List.mem_cons_self, checked⟩))
        · obtain ⟨listed, within, verdict'⟩ := exists_of_mem_forall₂ each' among
          rw [passed] at verdict'
          have checked := sigVerdict?_true.mp verdict'
          refine (List.mem_cons.mp (rest other among passed)).resolve_left fun same => ?_
          have passed : place.1 = true := by
            by_contra failed
            rw [same, empty (Bool.eq_false_iff.mpr failed) verdict] at checked
            cases checked
          rw [passed, ← same] at verdict
          have own : e.SignedBy [key] other.2 :=
            ⟨key, List.mem_cons_self, sigVerdict?_true.mp verdict⟩
          exact tells.not_signedBy own ⟨listed, within, checked⟩
  have same : places'.map Prod.fst = places.map Prod.fst := by
    refine eq_of_forall₂_countP ?_ (by simpa [List.countP_map] using enough)
    rw [List.forall₂_map_left_iff, List.forall₂_map_right_iff]
    exact marked
  clear known enough marked
  induction each generalizing places' with
  | nil =>
    cases each'
    rfl
  | @cons key place keys places verdict _ ih =>
    cases each' with
    | @cons _ place' _ places' verdict' each' =>
      obtain ⟨mark, below⟩ := List.cons.inj same
      rw [ih (tells.sublist (List.sublist_cons_self key keys)) each' below]
      congr 1
      refine Prod.ext mark ?_
      cases passed : place.1 with
      | false => rw [empty passed verdict, empty (mark.trans passed) verdict']
      | true =>
        rw [passed] at verdict
        rw [mark.trans passed] at verdict'
        exact tells.sole key List.mem_cons_self _ _ (sigVerdict?_true.mp verdict')
          (sigVerdict?_true.mp verdict)

end Evaluator

section Listed

variable {κ : Type} [PublicKey κ] {scheme : SignatureScheme} {entries : List (Bytes × Bytes)}
  {keys : List κ} {witness : List Bytes}

namespace Evaluator

/-- Listed signatures are told apart if each is listed once, with one of different keys. -/
theorem tellsApart_ofSignatures (distinct : (keys.map (PublicKey.pushed scheme)).Nodup)
    (sole : (entries.map Prod.fst).Nodup) (apart : (entries.map Prod.snd).Nodup)
    (plain : ∀ entry ∈ entries, entry.2 ≠ [1] ∧ entry.2.length ≠ 32 ∧
      ∀ key ∈ keys, entry.2 ≠ PublicKey.pushed scheme key) :
    (ofSignatures scheme entries).TellsApart keys where
  sole key _ signature signature' checked checked' := by
    have listed := (checkSig_ofSignatures.mp checked).2
    have listed' := (checkSig_ofSignatures.mp checked').2
    exact congrArg Prod.snd (List.inj_on_of_nodup_map sole listed listed' rfl)
  apart := by
    refine (List.pairwise_map.mp distinct).imp fun different signature checked => ?_
    by_contra passes
    have listed := (checkSig_ofSignatures.mp checked).2
    have listed' := (checkSig_ofSignatures.mp (Bool.of_not_eq_false passes)).2
    exact different (congrArg Prod.fst (List.inj_on_of_nodup_map apart listed listed' rfl))
  plain signature signed := by
    obtain ⟨key, _, checked⟩ := signed
    exact plain _ (checkSig_ofSignatures.mp checked).2

/-- Third parties tell apart what everyone does. -/
theorem TellsApart.thirdParty {e : Evaluator} (tells : e.TellsApart keys) :
    (e.thirdParty witness).TellsApart keys where
  sole key member _ _ checked checked' := tells.sole key member _ _
    (checkSig_thirdParty.mp checked).2 (checkSig_thirdParty.mp checked').2
  apart := tells.apart.imp fun apart signature checked => by
    by_contra passes
    have checked' := (checkSig_thirdParty.mp (Bool.of_not_eq_false passes)).2
    exact Bool.false_ne_true
      ((apart signature (checkSig_thirdParty.mp checked).2).symm.trans checked')
  plain signature signed := by
    obtain ⟨key, member, checked⟩ := signed
    exact tells.plain signature ⟨key, member, (checkSig_thirdParty.mp checked).2⟩

end Evaluator

end Listed

variable {κ : Type} [PublicKey κ] {e : Evaluator} {elements : List Bytes}

/-- Of the elements, at most one is a secret behind each hashlock. -/
def Condition.SoleSecrets {α : Type} (elements : List Bytes) : Condition κ Digest α → Prop :=
  All fun
    | .leaf (.digest d) => ∀ secret ∈ elements, ∀ secret' ∈ elements,
        secret.length = 32 → secret'.length = 32 → d.kind.hash secret = d.bytes →
          d.kind.hash secret' = d.bytes → secret = secret'
    | _ => True

/-- A leaf that has taken all the signatures by its keys takes nothing else for a yes. -/
theorem Leaf.eq_of_yes {α : Type} {note : α} {l : Leaf κ Digest} {taken other : List Bytes}
    (strict : e.nullFail = true) (tells : e.TellsApart l.keys) (opens : e.OpensOnly elements l.keys)
    (secrets : (Condition.leaf note l).SoleSecrets elements)
    (among : ∀ element ∈ taken, element ∈ elements) (among' : ∀ element ∈ other, element ∈ elements)
    (signed : ∀ element, e.SignedBy l.keys element → element ∈ taken)
    (run : AnswerRel.ofLeaf e false l true taken) (run' : AnswerRel.ofLeaf e false l true other) :
    other = taken := by
  cases l with
  | one => exact run'.2.trans run.2.symm
  | zero => cases run.1
  | after lock | older lock => exact run'.2.1.trans run.2.1.symm
  | key k =>
    obtain ⟨signature, rfl, verdict⟩ := run
    obtain ⟨signature', rfl, verdict'⟩ := run'
    rw [tells.sole k List.mem_cons_self _ _ (Evaluator.sigVerdict?_true.mp verdict')
      (Evaluator.sigVerdict?_true.mp verdict)]
  | keyHash k =>
    obtain ⟨key, signature, rfl, opened, verdict⟩ := run
    obtain ⟨key', signature', rfl, opened', verdict'⟩ := run'
    obtain rfl := opens key (among _ List.mem_cons_self) k List.mem_cons_self opened
    obtain rfl := opens key' (among' _ List.mem_cons_self) k List.mem_cons_self opened'
    rw [tells.sole k List.mem_cons_self _ _ (Evaluator.sigVerdict?_true.mp verdict')
      (Evaluator.sigVerdict?_true.mp verdict)]
  | digest d =>
    obtain ⟨secret, rfl, width, opened⟩ := run
    obtain ⟨secret', rfl, width', opened'⟩ := run'
    rw [Condition.SoleSecrets, Condition.all_leaf] at secrets
    rw [secrets secret' (among' _ List.mem_cons_self) secret (among _ List.mem_cons_self) width' width
      (beq_iff_eq.mp opened'.symm) (beq_iff_eq.mp opened.symm)]
  | multi ks =>
    obtain ⟨signatures, rfl, width, verdict⟩ := run
    obtain ⟨signatures', rfl, width', verdict'⟩ := run'
    obtain ⟨chosen, sublist, each⟩ :=
      Evaluator.checkSigs_iff.mp (Evaluator.verdict?_eq_some.mp verdict).1.symm
    obtain ⟨chosen', sublist', each'⟩ :=
      Evaluator.checkSigs_iff.mp (Evaluator.verdict?_eq_some.mp verdict').1.symm
    obtain ⟨keys, within, rfl⟩ := List.sublist_map_iff.mp sublist
    obtain ⟨keys', within', rfl⟩ := List.sublist_map_iff.mp sublist'
    rw [List.forall₂_map_right_iff] at each each'
    have same := tells.signatures_eq within within' each each' (by simp [width, width'])
      fun signature member => by
        obtain ⟨key, listed, checked⟩ := exists_of_mem_forall₂ each'.flip member
        have known := signed signature ⟨key, within'.subset listed, checked⟩
        refine List.mem_reverse.mpr ((List.mem_append.mp known).resolve_right fun dummy => ?_)
        exact Evaluator.ne_nil_of_checkSig checked (List.mem_singleton.mp dummy)
    rw [List.reverse_injective same]
  | multiA ks =>
    obtain ⟨count, counted, exact, _⟩ := run
    obtain ⟨count', counted', exact', _⟩ := run'
    obtain ⟨places, each, rfl, rfl⟩ := Evaluator.countSigs?_eq_some.mp counted
    obtain ⟨places', each', rfl, rfl⟩ := Evaluator.countSigs?_eq_some.mp counted'
    rw [List.forall₂_map_left_iff] at each each'
    rw [Evaluator.TellsApart.places_eq strict tells each each' ?_ ?_]
    · intro place member passed
      obtain ⟨key, listed, verdict⟩ := exists_of_mem_forall₂ each' member
      rw [passed] at verdict
      exact signed place.2 ⟨key, listed, Evaluator.sigVerdict?_true.mp verdict⟩
    · rw [beq_iff_eq.mp exact.symm, beq_iff_eq.mp exact'.symm]

namespace Typed.Validated

variable {context : Context} {search : Search κ} {note : Attributes} {t : Typed κ Digest}

section Publishes

variable {x y z : Typed κ Digest}

/-- Everyone can build the dissatisfaction, if it is unique. -/
private def Publishes (search : Search κ) (e : Evaluator) (t : Typed κ Digest) : Prop :=
  t.type.malleability.dissatisfaction = .unique → ∀ ⦃stack⦄,
    (search.outcomes t).dissat.witness = .stack stack → ∀ element ∈ stack, e.Public t.keys element

private theorem Publishes.within (publishes : Publishes search e x) {keys : List κ}
    (among : ∀ key ∈ x.keys, key ∈ keys) (unique : x.type.malleability.dissatisfaction = .unique)
    {stack : List Bytes} (found : (search.outcomes x).dissat.witness = .stack stack) :
    ∀ element ∈ stack, e.Public keys element :=
  fun element member => (publishes unique found element member).mono among

private theorem publishes_leaf (same : search.scheme = e.scheme) {l : Leaf κ Digest}
    (valid : Validated context (.leaf note l)) : Publishes search e (.leaf note l) := by
  intro unique stack found
  change note.type.malleability.dissatisfaction = .unique at unique
  rw [valid.malleability_leaf] at unique
  rw [Search.outcomes_leaf] at found
  rw [Condition.keys_leaf]
  cases l with
  | zero =>
    cases found
    exact List.forall_mem_nil _
  | key k =>
    cases found
    exact List.forall_mem_singleton.mpr (.inl rfl)
  | keyHash k =>
    cases found
    rw [same]
    exact List.forall_mem_cons.mpr ⟨.inl rfl, List.forall_mem_singleton.mpr
      (.inr (.inr ⟨k, List.mem_cons_self, rfl⟩))⟩
  | multi ks | multiA ks =>
    cases found
    exact fun element member => .inl (List.eq_of_mem_replicate member)
  | one | after lock | older lock | digest d => cases unique

private theorem Publishes.wrap {w : Wrapper} (valid : Validated context (.wrap note w x))
    (below : Publishes search e x) : Publishes search e (.wrap note w x) := by
  intro unique stack found
  change note.type.malleability.dissatisfaction = .unique at unique
  rw [valid.malleability_wrap] at unique
  rw [Search.outcomes_wrap] at found
  rw [Condition.keys_wrap]
  cases w with
  | alt | swap | check | zeroNotEqual => exact below unique found
  | dupIf | nonzero =>
    cases found
    exact List.forall_mem_singleton.mpr (.inl rfl)
  | verify => cases unique

private theorem Publishes.pair {op : Connective} (valid : Validated context (.pair note op x y))
    (nonMalleable : note.type.malleability.nonMalleable = true)
    (byType : search.DissatisfiesByType (.pair note op x y)) (first : Publishes search e x)
    (second : Publishes search e y) : Publishes search e (.pair note op x y) := by
  intro unique stack found
  obtain ⟨validX, validY, _⟩ := valid.pair
  change note.type.malleability.dissatisfaction = .unique at unique
  rw [valid.malleability_pair] at nonMalleable unique
  obtain ⟨_, _, uniqueX, uniqueY⟩ := Malleability.nonMalleable_pair nonMalleable
  rw [Search.outcomes_pair] at found
  rw [Condition.keys_pair]
  have left {stack : List Bytes} (unique : x.type.malleability.dissatisfaction = .unique)
      (found : (search.outcomes x).dissat.witness = .stack stack) :
      ∀ element ∈ stack, e.Public (x.keys ++ y.keys) element :=
    first.within (fun _ => List.mem_append_left _) unique found
  have right {stack : List Bytes} (unique : y.type.malleability.dissatisfaction = .unique)
      (found : (search.outcomes y).dissat.witness = .stack stack) :
      ∀ element ∈ stack, e.Public (x.keys ++ y.keys) element :=
    second.within (fun _ => List.mem_append_right _) unique found
  have both (uniqueX : x.type.malleability.dissatisfaction = .unique)
      (uniqueY : y.type.malleability.dissatisfaction = .unique)
      (found : ((search.outcomes y).dissat.below (search.outcomes x).dissat).witness = .stack stack) :
      ∀ element ∈ stack, e.Public (x.keys ++ y.keys) element := by
    obtain ⟨lower, upper, foundY, foundX, rfl⟩ := Witness.below_eq_stack.mp found
    exact List.forall_mem_append.mpr ⟨right uniqueY foundY, left uniqueX foundX⟩
  cases op with
  | andV => exact absurd unique Malleability.andV_ne_unique
  | orC => cases unique
  | andB =>
    obtain ⟨⟨uniqueX, _⟩, uniqueY, _⟩ := Malleability.andB_eq_unique.mp unique
    exact both uniqueX uniqueY found
  | orB => exact both (uniqueX (by simp)) (uniqueY rfl) found
  | orD => exact both (uniqueX (by simp)) unique found
  | orI =>
    have root := ((Condition.all_pair ..).mp byType).1
    change (Satisfaction.cheaper _ _).witness = _ at found
    -- Only one of the branches can be dissatisfied by its type, and the search takes that one.
    rcases Malleability.orI_eq_unique.mp unique with ⟨unique, none⟩ | ⟨none, unique⟩
    · have yes := validX.coherent.1 unique
      have no := validY.coherent.2 none
      obtain ⟨_, taken⟩ := (root (by rw [yes, no]; rfl)).resolve_right fun other =>
        Bool.false_ne_true (no.symm.trans other.1)
      rw [taken] at found
      obtain ⟨lower, upper, foundX, top, rfl⟩ := Witness.below_eq_stack.mp found
      cases top
      exact List.forall_mem_append.mpr
        ⟨left unique foundX, List.forall_mem_singleton.mpr (.inr (.inl rfl))⟩
    · have yes := validY.coherent.1 unique
      have no := validX.coherent.2 none
      obtain ⟨_, taken⟩ := (root (by rw [yes, no]; rfl)).resolve_left fun other =>
        Bool.false_ne_true (no.symm.trans other.1)
      rw [taken] at found
      obtain ⟨lower, upper, foundY, top, rfl⟩ := Witness.below_eq_stack.mp found
      cases top
      exact List.forall_mem_append.mpr
        ⟨right unique foundY, List.forall_mem_singleton.mpr (.inl rfl)⟩

private theorem Publishes.andOr (valid : Validated context (.andOr note x y z))
    (uniqueX : x.type.malleability.dissatisfaction = .unique) (first : Publishes search e x)
    (third : Publishes search e z) : Publishes search e (.andOr note x y z) := by
  intro unique stack found
  change note.type.malleability.dissatisfaction = .unique at unique
  rw [valid.malleability_andOr] at unique
  obtain ⟨_, uniqueZ⟩ := (Malleability.andOr_dissatisfaction (by decide)).mp unique
  rw [Search.outcomes_andOr] at found
  rw [Condition.keys_andOr]
  obtain ⟨lower, upper, foundZ, foundX, rfl⟩ := Witness.below_eq_stack.mp found
  exact List.forall_mem_append.mpr ⟨third.within (fun _ => List.mem_append_right _) uniqueZ foundZ,
    first.within (by simp +contextual) uniqueX foundX⟩

private theorem publishes_thresh {k : Nat} {items : List (Typed κ Digest)}
    (each : ∀ x ∈ items, x.type.malleability.dissatisfaction = .unique ∧ Publishes search e x) :
    Publishes search e (.thresh note k items) := by
  intro _ stack found
  rw [Search.outcomes_thresh, Outcomes.thresh_dissat_witness] at found
  rw [Condition.keys_thresh]
  have gives : List.Forall₂ Outcomes.Gives (items.map search.outcomes)
      (items.map fun x answer taken => answer = false → ∀ element ∈ taken, e.Public x.keys element) := by
    rw [List.forall₂_map_left_iff, List.forall₂_map_right_iff, List.forall₂_same]
    refine fun x member => ⟨fun _ _ => nofun, fun stack found _ element within => ?_⟩
    obtain ⟨unique, publishes⟩ := each x member
    exact publishes unique found element (List.mem_reverse.mp within)
  obtain ⟨parts, runs, shape, marks⟩ := Outcomes.gives_gather gives (by simp) _ found
  rw [List.forall₂_map_left_iff] at runs
  intro element member
  rw [← List.mem_reverse, shape] at member
  obtain ⟨part, among, within⟩ := List.mem_flatMap.mp member
  obtain ⟨x, listed, revealed⟩ := exists_of_mem_forall₂ runs among
  have no : part.1 = false := List.eq_of_mem_replicate (marks ▸ List.mem_map_of_mem among)
  exact (revealed no element within).mono fun _ own => List.mem_flatMap.mpr ⟨x, listed, own⟩

end Publishes

/-- Where the search keeps to the types, everyone can build a unique dissatisfaction. -/
theorem public_dissat (same : search.scheme = e.scheme) (valid : Validated context t)
    (nonMalleable : t.type.malleability.nonMalleable = true)
    (unique : t.type.malleability.dissatisfaction = .unique) (byType : search.DissatisfiesByType t)
    {stack : List Bytes} (found : (search.outcomes t).dissat.witness = .stack stack) :
    ∀ element ∈ stack, e.Public t.keys element := by
  suffices Publishes search e t from this unique found
  clear unique found
  induction t using Typed.induct with
  | leaf note l => exact publishes_leaf same valid
  | wrap note w x ih =>
    have below : note.type.malleability.nonMalleable = true := nonMalleable
    rw [valid.malleability_wrap, Malleability.nonMalleable_wrap] at below
    exact .wrap valid (ih valid.wrap.1 below ((Condition.all_wrap ..).mp byType).2)
  | pair note op x y ihX ihY =>
    obtain ⟨validX, validY, _⟩ := valid.pair
    obtain ⟨_, byTypeX, byTypeY⟩ := (Condition.all_pair ..).mp byType
    obtain ⟨nonMalleableX, nonMalleableY, _⟩ :=
      Malleability.nonMalleable_pair (valid.malleability_pair ▸ nonMalleable)
    exact .pair valid nonMalleable byType (ihX validX nonMalleableX byTypeX)
      (ihY validY nonMalleableY byTypeY)
  | andOr note x y z ihX _ ihZ =>
    obtain ⟨validX, _, validZ, _⟩ := valid.andOr
    obtain ⟨_, byTypeX, _, byTypeZ⟩ := (Condition.all_andOr ..).mp byType
    obtain ⟨⟨nonMalleableX, uniqueX⟩, _, nonMalleableZ⟩ :=
      Malleability.nonMalleable_andOr (valid.malleability_andOr ▸ nonMalleable)
    exact .andOr valid uniqueX (ihX validX nonMalleableX byTypeX) (ihZ validZ nonMalleableZ byTypeZ)
  | thresh note k items ih =>
    have below := Malleability.nonMalleable_threshold (valid.malleability_thresh ▸ nonMalleable)
    rw [List.forall_mem_map] at below
    obtain ⟨_, byTypeBelow⟩ := (Condition.all_thresh ..).mp byType
    exact publishes_thresh fun x member => ⟨(below x member).2,
      ih x member (valid.thresh.1 x member) (below x member).1 (byTypeBelow x member)⟩

end Typed.Validated

/-- A third party who has seen a witness that a cautious search found in genuine material, and knows
other elements besides. What passes for the signer passes for the third party, if its signatures are in
the witness. -/
structure Onlooker (search : Search κ) (signer e : Evaluator) (witness elements : List Bytes) :
    Prop where
  policy : search.policy = .nonMalleable
  scheme : search.scheme = signer.scheme
  genuine : search.material.Genuine signer search.leafHash
  agrees : signer.Agrees e witness
  strict : e.nullFail = true
  known : ∀ element ∈ witness, element ∈ elements

/-- A part of a condition that leaves third parties no choice as long as its signatures are known. -/
structure Guarded (context : Context) (search : Search κ) (e : Evaluator) (elements : List Bytes)
    (t : Typed κ Digest) : Prop where
  valid : Typed.Validated context t
  nonMalleable : t.type.malleability.nonMalleable = true
  byType : search.DissatisfiesByType t
  counts : t.CountsBelow (2 ^ 39)
  tells : e.TellsApart t.keys
  opens : e.OpensOnly elements t.keys
  secrets : t.SoleSecrets elements

/-- Two guarded parts that share no key. -/
structure Guarded.Apart (context : Context) (search : Search κ) (e : Evaluator) (elements : List Bytes)
    (x y : Typed κ Digest) : Prop where
  first : Guarded context search e elements x
  second : Guarded context search e elements y
  tells : e.TellsApart (x.keys ++ y.keys)
  opens : e.OpensOnly elements (x.keys ++ y.keys)

namespace Guarded

variable {context : Context} {search : Search κ} {signer : Evaluator} {witness : List Bytes}
  {note : Attributes} {t x y z : Typed κ Digest} {stack taken other : List Bytes} {answer : Bool}

theorem opensOnly (guarded : Guarded context search e elements t)
    (among : ∀ element ∈ taken, element ∈ elements) : e.OpensOnly taken t.keys :=
  guarded.opens.mono among fun _ => id

/-- A child is guarded if its keys are some of those of the whole. -/
private theorem child (guarded : Guarded context search e elements t) (member : x ∈ t.children)
    (nonMalleable : x.type.malleability.nonMalleable = true) (keys : x.keys.Sublist t.keys) :
    Guarded context search e elements x where
  valid := guarded.valid.child member
  nonMalleable := nonMalleable
  byType := ((Condition.all_iff t).mp guarded.byType).2 x member
  counts := ((Condition.all_iff t).mp guarded.counts).2 x member
  tells := guarded.tells.sublist keys
  opens := guarded.opens.mono (fun _ => id) fun _ => (keys.subset ·)
  secrets := ((Condition.all_iff t).mp guarded.secrets).2 x member

theorem wrap {w : Wrapper} (guarded : Guarded context search e elements (.wrap note w x)) :
    Guarded context search e elements x := by
  have whole : note.type.malleability.nonMalleable = true := guarded.nonMalleable
  rw [guarded.valid.malleability_wrap, Malleability.nonMalleable_wrap] at whole
  exact guarded.child (by simp) whole (by simp)

theorem pair {op : Connective} (guarded : Guarded context search e elements (.pair note op x y)) :
    Apart context search e elements x y := by
  have whole : note.type.malleability.nonMalleable = true := guarded.nonMalleable
  rw [guarded.valid.malleability_pair] at whole
  obtain ⟨nonMalleableX, nonMalleableY, _⟩ := Malleability.nonMalleable_pair whole
  have keys := Condition.keys_pair note op x y
  exact ⟨guarded.child (by simp) nonMalleableX (by simp),
    guarded.child (by simp) nonMalleableY (by simp), keys ▸ guarded.tells, keys ▸ guarded.opens⟩

theorem andOr (guarded : Guarded context search e elements (.andOr note x y z)) :
    Apart context search e elements x y ∧ Apart context search e elements x z ∧
      Apart context search e elements y z := by
  have whole : note.type.malleability.nonMalleable = true := guarded.nonMalleable
  rw [guarded.valid.malleability_andOr] at whole
  obtain ⟨⟨nonMalleableX, _⟩, nonMalleableY, nonMalleableZ⟩ := Malleability.nonMalleable_andOr whole
  have guardedX := guarded.child (x := x) (by simp) nonMalleableX (by simp [List.append_assoc])
  have guardedY := guarded.child (x := y) (by simp) nonMalleableY (by simp)
  have guardedZ := guarded.child (x := z) (by simp) nonMalleableZ (by simp)
  have apart {x y : Typed κ Digest} (guardedX : Guarded context search e elements x)
      (guardedY : Guarded context search e elements y)
      (keys : (x.keys ++ y.keys).Sublist (Condition.andOr note _ _ z).keys) :
      Apart context search e elements x y :=
    ⟨guardedX, guardedY, guarded.tells.sublist keys,
      guarded.opens.mono (fun _ => id) fun _ => (keys.subset ·)⟩
  refine ⟨apart guardedX guardedY (by simp), apart guardedX guardedZ ?_, apart guardedY guardedZ ?_⟩
  · rw [Condition.keys_andOr]
    exact (List.sublist_append_left _ _).append (.refl _)
  · rw [Condition.keys_andOr]
    exact (List.sublist_append_right _ _).append (.refl _)

theorem thresh {k : Nat} {items : List (Typed κ Digest)}
    (guarded : Guarded context search e elements (.thresh note k items)) :
    ∀ x ∈ items, Guarded context search e elements x ∧
      x.type.malleability.dissatisfaction = .unique := by
  have whole : note.type.malleability.nonMalleable = true := guarded.nonMalleable
  rw [guarded.valid.malleability_thresh] at whole
  have below := List.forall_mem_map.mp (Malleability.nonMalleable_threshold whole)
  intro x member
  refine ⟨guarded.child (by simpa using member) (below x member).1 ?_, (below x member).2⟩
  rw [Condition.keys_thresh]
  exact sublist_flatMap_of_mem member

/-- What was found is a run of the third party, as it was one of the signer. A dissatisfaction has to be
the unique one: that of a hashlock may open it. -/
theorem run_pick (onlooker : Onlooker search signer e witness elements)
    (guarded : Guarded context search e elements t)
    (matters : answer = true ∨ t.type.malleability.dissatisfaction = .unique)
    (found : ((search.outcomes t).pick answer).witness = .stack stack)
    (seen : ∀ element ∈ stack, element ∈ witness) : t.Answers e false answer stack.reverse := by
  have gives := Typed.Validated.gives_where onlooker.genuine onlooker.scheme guarded.valid guarded.counts
    (guarded.valid.descendsThrough_of_nonMalleable guarded.nonMalleable guarded.byType)
  have run := (gives.pick answer stack found matters).1
  exact run.of_agrees (onlooker.agrees.mono fun element member =>
    seen element (List.mem_reverse.mp member))

/-- Whom no signature is left for satisfies only what is free to all. -/
theorem isFree_of_yes (onlooker : Onlooker search signer e witness elements)
    (guarded : Guarded context search e elements t) (unsigned : e.Unsigned t.keys)
    (among : ∀ element ∈ taken, element ∈ elements) (run : t.Answers e false true taken) :
    (search.outcomes t).sat.isFree = true := by
  refine guarded.valid.sat_free onlooker.policy (fun lock => ?_) (fun lock => ?_)
    guarded.nonMalleable unsigned (guarded.opensOnly among) run
  · rw [onlooker.genuine.meetsAfter_eq, onlooker.agrees.meetsAfter]
  · rw [onlooker.genuine.meetsOlder_eq, onlooker.agrees.meetsOlder]

/-- If all signatures by the keys of a condition are in its unique dissatisfaction, there are none. -/
theorem unsigned (onlooker : Onlooker search signer e witness elements)
    (guarded : Guarded context search e elements t)
    (unique : t.type.malleability.dissatisfaction = .unique)
    (found : (search.outcomes t).dissat.witness = .stack stack)
    (signed : ∀ element, e.SignedBy t.keys element → element ∈ stack) : e.Unsigned t.keys := by
  have scheme : search.scheme = e.scheme := onlooker.scheme.trans onlooker.agrees.scheme.symm
  have revealed := guarded.valid.public_dissat scheme guarded.nonMalleable unique guarded.byType found
  exact fun element isSigned =>
    (revealed element (signed element isSigned)).not_signedBy guarded.tells isSigned

namespace Apart

/-- What one part has taken holds no signature by a key of the other. -/
theorem not_signedBy_second (answer : Bool) (onlooker : Onlooker search signer e witness elements)
    (apart : Apart context search e elements x y)
    (matters : answer = true ∨ x.type.malleability.dissatisfaction = .unique)
    (found : ((search.outcomes x).pick answer).witness = .stack stack)
    (seen : ∀ element ∈ stack, element ∈ witness) :
    ∀ element ∈ stack, ¬e.SignedBy y.keys element := by
  intro element member signed
  refine apart.tells.not_signedBy (((apart.first.run_pick onlooker matters found seen).signedBy_of_mem
    onlooker.strict apart.tells (apart.opens.mono (fun element member => ?_) fun _ => id)
    (fun _ => List.mem_append_left _) (List.mem_reverse.mpr member) signed.right).1) signed
  exact onlooker.known element (seen element (List.mem_reverse.mp member))

theorem not_signedBy_first (answer : Bool) (onlooker : Onlooker search signer e witness elements)
    (apart : Apart context search e elements x y)
    (matters : answer = true ∨ y.type.malleability.dissatisfaction = .unique)
    (found : ((search.outcomes y).pick answer).witness = .stack stack)
    (seen : ∀ element ∈ stack, element ∈ witness) :
    ∀ element ∈ stack, ¬e.SignedBy x.keys element := by
  intro element member signed
  refine apart.tells.not_signedBy signed (((apart.second.run_pick onlooker matters found seen).signedBy_of_mem
    onlooker.strict apart.tells (apart.opens.mono (fun element member => ?_) fun _ => id)
    (fun _ => List.mem_append_right _) (List.mem_reverse.mpr member) signed.left).1)
  exact onlooker.known element (seen element (List.mem_reverse.mp member))

/-- What two parts took one after the other is found again part by part, and each part holds all the
signatures by its own keys. -/
theorem split (a b : Bool) (onlooker : Onlooker search signer e witness elements)
    (apart : Apart context search e elements x y)
    (matters : a = true ∨ x.type.malleability.dissatisfaction = .unique)
    (matters' : b = true ∨ y.type.malleability.dissatisfaction = .unique)
    (found : (((search.outcomes y).pick b).below ((search.outcomes x).pick a)).witness = .stack stack)
    (seen : ∀ element ∈ stack, element ∈ witness)
    (signed : ∀ element, e.SignedBy (x.keys ++ y.keys) element → element ∈ stack) :
    ∃ lower upper, stack = lower ++ upper ∧
      (((search.outcomes x).pick a).witness = .stack upper ∧ (∀ element ∈ upper, element ∈ witness) ∧
        ∀ element, e.SignedBy x.keys element → element ∈ upper) ∧
      ((search.outcomes y).pick b).witness = .stack lower ∧ (∀ element ∈ lower, element ∈ witness) ∧
        ∀ element, e.SignedBy y.keys element → element ∈ lower := by
  obtain ⟨lower, upper, foundY, foundX, rfl⟩ := Witness.below_eq_stack.mp found
  obtain ⟨seenY, seenX⟩ := List.forall_mem_append.mp seen
  refine ⟨lower, upper, rfl, ⟨foundX, seenX, fun element own => ?_⟩, foundY, seenY,
    fun element own => ?_⟩
  · exact (List.mem_append.mp (signed element own.left)).resolve_left fun below =>
      apart.not_signedBy_first b onlooker matters' foundY seenY element below own
  · exact (List.mem_append.mp (signed element own.right)).resolve_right fun above =>
      apart.not_signedBy_second a onlooker matters foundX seenX element above own

end Apart

end Guarded

/-- Once all signatures by the keys of a condition are in what was found for an answer, nothing else
gives that answer. -/
def Only (search : Search κ) (e : Evaluator) (witness elements : List Bytes) (answer : Bool)
    (t : Typed κ Digest) : Prop :=
  ∀ stack, ((search.outcomes t).pick answer).witness = .stack stack →
    (∀ element ∈ stack, element ∈ witness) →
    (∀ element, e.SignedBy t.keys element → element ∈ stack) →
    ∀ other, (∀ element ∈ other, element ∈ elements) → t.Answers e false answer other →
      other = stack.reverse

namespace Only

variable {context : Context} {search : Search κ} {signer : Evaluator} {witness : List Bytes}
  {note : Attributes} {t x y z : Typed κ Digest} {stack taken other : List Bytes} {a b : Bool}

/-- A unique dissatisfaction is the only one. -/
theorem no (onlooker : Onlooker search signer e witness elements)
    (guarded : Guarded context search e elements t)
    (unique : t.type.malleability.dissatisfaction = .unique) :
    Only search e witness elements false t := by
  intro stack found seen signed other among run
  have unsigned := guarded.unsigned onlooker unique found signed
  have built := guarded.run_pick onlooker (.inr unique) found seen
  obtain ⟨sole, no⟩ := guarded.valid.exists_soleNo onlooker.strict guarded.nonMalleable unique
  rw [no.sole unsigned false other (guarded.opensOnly among) run,
    no.sole unsigned false stack.reverse (guarded.opensOnly fun element member =>
      onlooker.known element (seen element (List.mem_reverse.mp member))) built]

/-- Two parts one after the other have no other run, if each of them has none. -/
theorem both (onlyX : Only search e witness elements a x) (onlyY : Only search e witness elements b y)
    (onlooker : Onlooker search signer e witness elements)
    (apart : Guarded.Apart context search e elements x y)
    (matters : a = true ∨ x.type.malleability.dissatisfaction = .unique)
    (matters' : b = true ∨ y.type.malleability.dissatisfaction = .unique)
    (found : (((search.outcomes y).pick b).below ((search.outcomes x).pick a)).witness = .stack stack)
    (seen : ∀ element ∈ stack, element ∈ witness)
    (signed : ∀ element, e.SignedBy (x.keys ++ y.keys) element → element ∈ stack)
    (among : ∀ element ∈ other, element ∈ elements)
    (run : AnswerRel.Both (x.Answers e false) (y.Answers e false) a b other) :
    other = stack.reverse := by
  obtain ⟨lower, upper, rfl, ⟨foundX, seenX, signedX⟩, foundY, seenY, signedY⟩ :=
    apart.split a b onlooker matters matters' found seen signed
  obtain ⟨above, below, rfl, runX, runY⟩ := run
  obtain ⟨amongX, amongY⟩ := List.forall_mem_append.mp among
  rw [onlyX upper foundX seenX signedX above amongX runX,
    onlyY lower foundY seenY signedY below amongY runY, List.reverse_append]

private theorem wrap {w : Wrapper}
    (guarded : Guarded context search e elements (.wrap note w x))
    (only : Only search e witness elements true x) :
    Only search e witness elements true (.wrap note w x) := by
  intro stack found seen signed other among run
  rw [Search.outcomes_wrap] at found
  rw [Condition.answers_wrap] at run
  rw [Condition.keys_wrap] at signed
  cases w with
  | alt | swap | check | zeroNotEqual => exact only stack found seen signed other among run
  | verify => exact only stack found seen signed other among run.2
  | nonzero =>
    obtain ⟨no, _⟩ | ⟨_, _, _, _, _, run, _⟩ := run
    · cases no
    · exact only stack found seen signed other among run
  | dupIf =>
    obtain ⟨no, _⟩ | ⟨_, rfl, run⟩ := run
    · cases no
    · obtain ⟨lower, upper, foundX, top, rfl⟩ := Witness.below_eq_stack.mp found
      cases top
      obtain ⟨seenX, _⟩ := List.forall_mem_append.mp seen
      have below := only lower foundX seenX (fun element own => ?_) [] (List.forall_mem_nil _) run
      · rw [List.reverse_append, ← below]
        rfl
      · refine (List.mem_append.mp (signed element own)).resolve_right fun one => ?_
        exact (guarded.wrap.tells.plain element own).1 (List.mem_singleton.mp one)

private theorem pair {op : Connective} (onlooker : Onlooker search signer e witness elements)
    (guarded : Guarded context search e elements (.pair note op x y))
    (onlyX : Only search e witness elements true x) (onlyY : Only search e witness elements true y) :
    Only search e witness elements true (.pair note op x y) := by
  intro stack found seen signed other among run
  have apart := guarded.pair
  have whole : note.type.malleability.nonMalleable = true := guarded.nonMalleable
  rw [guarded.valid.malleability_pair] at whole
  obtain ⟨nonMalleableX, nonMalleableY, uniqueX, uniqueY⟩ := Malleability.nonMalleable_pair whole
  rw [Search.outcomes_pair, onlooker.policy] at found
  rw [Condition.answers_pair] at run
  rw [Condition.keys_pair] at signed
  -- A part that is left without signatures can only be satisfied if that is free.
  have freeX {taken : List Bytes} (unsigned : e.Unsigned x.keys)
      (among : ∀ element ∈ taken, element ∈ elements) (run : x.Answers e false true taken) :=
    apart.first.isFree_of_yes onlooker unsigned among run
  have freeY {taken : List Bytes} (unsigned : e.Unsigned y.keys)
      (among : ∀ element ∈ taken, element ∈ elements) (run : y.Answers e false true taken) :=
    apart.second.isFree_of_yes onlooker unsigned among run
  have noX (unique : x.type.malleability.dissatisfaction = .unique) :=
    Only.no onlooker apart.first unique
  have noFreeX (unique : x.type.malleability.dissatisfaction = .unique) :
      (search.outcomes x).dissat.isFree = true :=
    apart.first.valid.dissat_free unique
  cases op with
  | andV => exact onlyX.both onlyY onlooker apart (.inl rfl) (.inl rfl) found seen signed among run.1
  | andB =>
    obtain ⟨first, second, run, yes, _⟩ := run
    obtain ⟨rfl, rfl⟩ := Bool.and_eq_true_iff.mp yes.symm
    exact onlyX.both onlyY onlooker apart (.inl rfl) (.inl rfl) found seen signed among run
  | orB =>
    have uniqueX := uniqueX (by simp)
    have uniqueY := uniqueY rfl
    obtain ⟨first, second, run, yes, _⟩ := run
    have run' := run
    obtain ⟨upper, lower, rfl, left, right⟩ := run'
    obtain ⟨amongX, amongY⟩ := List.forall_mem_append.mp among
    rcases Satisfaction.cheaperNonMalleable_eq_stack found with ⟨found, bound⟩ | ⟨found, bound⟩
    · obtain ⟨_, _, _, ⟨foundX, _, signedX⟩, _⟩ :=
        apart.split false true onlooker (.inr uniqueX) (.inl rfl) found seen signed
      have unsignedX := apart.first.unsigned onlooker uniqueX foundX signedX
      cases first with
      | true =>
        exact absurd (Satisfaction.isFree_below
          (apart.second.valid.dissat_free uniqueY) (freeX unsignedX amongX left))
          (Bool.eq_false_iff.mp bound)
      | false =>
        obtain rfl : second = true := yes.symm
        exact (noX uniqueX).both onlyY onlooker apart (.inr uniqueX) (.inl rfl) found seen signed among run
    · obtain ⟨_, _, _, _, foundY, _, signedY⟩ :=
        apart.split true false onlooker (.inl rfl) (.inr uniqueY) found seen signed
      have unsignedY := apart.second.unsigned onlooker uniqueY foundY signedY
      cases second with
      | true =>
        exact absurd (Satisfaction.isFree_below (freeY unsignedY amongY right) (noFreeX uniqueX))
          (Bool.eq_false_iff.mp bound)
      | false =>
        obtain rfl : first = true := by simpa using yes.symm
        exact onlyX.both (Only.no onlooker apart.second uniqueY) onlooker apart (.inl rfl) (.inr uniqueY)
          found seen signed among run
  | orD | orC =>
    have uniqueX := uniqueX (by simp)
    rcases Satisfaction.cheaperNonMalleable_eq_stack found with ⟨found, bound⟩ | ⟨found, bound⟩
    · have absent := apart.not_signedBy_second true onlooker (.inl rfl) found seen
      have unsignedY : e.Unsigned y.keys :=
        fun element own => absent element (signed element own.right) own
      obtain ⟨_, run⟩ | ⟨upper, lower, rfl, _, right⟩ := run
      · refine onlyX stack found seen (fun element own => signed element own.left) other among run
      · exact absurd (Satisfaction.isFree_below
          (freeY unsignedY (List.forall_mem_append.mp among).2 right) (noFreeX uniqueX))
          (Bool.eq_false_iff.mp bound)
    · obtain ⟨_, _, _, ⟨foundX, _, signedX⟩, _⟩ :=
        apart.split false true onlooker (.inr uniqueX) (.inl rfl) found seen signed
      have unsignedX := apart.first.unsigned onlooker uniqueX foundX signedX
      obtain ⟨_, run⟩ | run := run
      · exact absurd (freeX unsignedX among run) (Bool.eq_false_iff.mp bound)
      · exact (noX uniqueX).both onlyY onlooker apart (.inr uniqueX) (.inl rfl) found seen signed among run
  | orI =>
    obtain ⟨rest, run⟩ := run
    rcases Satisfaction.cheaperNonMalleable_eq_stack found with ⟨found, bound⟩ | ⟨found, bound⟩
    · obtain ⟨below, top, foundX, one, rfl⟩ := Witness.below_eq_stack.mp found
      cases one
      obtain ⟨seenX, _⟩ := List.forall_mem_append.mp seen
      have within {element : Bytes} (own : e.SignedBy (x.keys ++ y.keys) element) : element ∈ below :=
        (List.mem_append.mp (signed element own)).resolve_right fun one =>
          (apart.tells.plain element own).1 (List.mem_singleton.mp one)
      have absent := apart.not_signedBy_second true onlooker (.inl rfl) foundX seenX
      obtain ⟨rfl, run⟩ | ⟨rfl, run⟩ := run
      · rw [onlyX below foundX seenX (fun element own => within own.left) rest
          (List.forall_mem_cons.mp among).2 run, List.reverse_append]
        rfl
      · exact absurd (Satisfaction.isFree_select (freeY
          (fun element own => absent element (within own.right) own)
          (List.forall_mem_cons.mp among).2 run)) (Bool.eq_false_iff.mp bound)
    · obtain ⟨below, top, foundY, zero, rfl⟩ := Witness.below_eq_stack.mp found
      cases zero
      obtain ⟨seenY, _⟩ := List.forall_mem_append.mp seen
      have within {element : Bytes} (own : e.SignedBy (x.keys ++ y.keys) element) : element ∈ below :=
        (List.mem_append.mp (signed element own)).resolve_right fun zero =>
          own.ne_nil (List.mem_singleton.mp zero)
      have absent := apart.not_signedBy_first true onlooker (.inl rfl) foundY seenY
      obtain ⟨rfl, run⟩ | ⟨rfl, run⟩ := run
      · exact absurd (Satisfaction.isFree_select (freeX
          (fun element own => absent element (within own.left) own)
          (List.forall_mem_cons.mp among).2 run)) (Bool.eq_false_iff.mp bound)
      · rw [onlyY below foundY seenY (fun element own => within own.right) rest
          (List.forall_mem_cons.mp among).2 run, List.reverse_append]
        rfl

private theorem andOr (onlooker : Onlooker search signer e witness elements)
    (guarded : Guarded context search e elements (.andOr note x y z))
    (onlyX : Only search e witness elements true x) (onlyY : Only search e witness elements true y)
    (onlyZ : Only search e witness elements true z) :
    Only search e witness elements true (.andOr note x y z) := by
  intro stack found seen signed other among run
  obtain ⟨apartXY, apartXZ, apartYZ⟩ := guarded.andOr
  have whole : note.type.malleability.nonMalleable = true := guarded.nonMalleable
  rw [guarded.valid.malleability_andOr] at whole
  obtain ⟨⟨nonMalleableX, uniqueX⟩, _, _⟩ := Malleability.nonMalleable_andOr whole
  have noFreeX : (search.outcomes x).dissat.isFree = true :=
    apartXZ.first.valid.dissat_free uniqueX
  rw [Search.outcomes_andOr, onlooker.policy] at found
  rw [Condition.answers_andOr] at run
  rw [Condition.keys_andOr] at signed
  rcases Satisfaction.cheaperNonMalleable_eq_stack found with ⟨found, bound⟩ | ⟨found, bound⟩
  · obtain ⟨lower, upper, rfl, ⟨foundX, seenX, _⟩, foundY, seenY, _⟩ :=
      apartXY.split true true onlooker (.inl rfl) (.inl rfl) found seen fun element own =>
        signed element own.left
    obtain ⟨run, _⟩ | ⟨above, below, rfl, _, right⟩ := run
    · exact onlyX.both onlyY onlooker apartXY (.inl rfl) (.inl rfl) found seen
        (fun element own => signed element own.left) among run
    · have unsignedZ : e.Unsigned z.keys := by
        intro element own
        rcases List.mem_append.mp (signed element own.right) with member | member
        · exact apartYZ.not_signedBy_second true onlooker (.inl rfl) foundY seenY element member own
        · exact apartXZ.not_signedBy_second true onlooker (.inl rfl) foundX seenX element member own
      exact absurd (Satisfaction.isFree_below (apartXZ.second.isFree_of_yes onlooker unsignedZ
        (List.forall_mem_append.mp among).2 right) noFreeX) (Bool.eq_false_iff.mp bound)
  · have signedXZ : ∀ element, e.SignedBy (x.keys ++ z.keys) element → element ∈ stack :=
      fun element own => signed element (own.mono (by simp +contextual [or_imp]))
    obtain ⟨lower, upper, rfl, ⟨foundX, seenX, signedX⟩, foundZ, seenZ, _⟩ :=
      apartXZ.split false true onlooker (.inr uniqueX) (.inl rfl) found seen signedXZ
    obtain ⟨⟨above, below, rfl, left, right⟩, _⟩ | run := run
    · obtain ⟨amongX, amongY⟩ := List.forall_mem_append.mp among
      have unsignedX := apartXZ.first.unsigned onlooker uniqueX foundX signedX
      have unsignedY : e.Unsigned y.keys := by
        intro element own
        rcases List.mem_append.mp (signed element own.right.left) with member | member
        · exact apartYZ.not_signedBy_first true onlooker (.inl rfl) foundZ seenZ element member own
        · exact apartXY.not_signedBy_second false onlooker (.inr uniqueX) foundX seenX element member own
      exact absurd (Satisfaction.isFree_below
        (apartXY.second.isFree_of_yes onlooker unsignedY amongY right)
        (apartXY.first.isFree_of_yes onlooker unsignedX amongX left)) (Bool.eq_false_iff.mp bound)
    · exact (Only.no onlooker apartXZ.first uniqueX).both onlyZ onlooker apartXZ (.inr uniqueX) (.inl rfl)
        found seen signedXZ among run

/-- Of what children took one after the other, each part holds all signatures by its own keys. -/
private theorem signed_parts {items : List (Typed κ Digest)} {parts : List (List Bytes)}
    (tells : e.TellsApart (items.flatMap Condition.keys))
    (owned : List.Forall₂ (fun (x : Typed κ Digest) part => ∀ element ∈ part,
      e.SignedBy (items.flatMap Condition.keys) element → e.SignedBy x.keys element) items parts)
    (signed : ∀ element, e.SignedBy (items.flatMap Condition.keys) element → element ∈ parts.flatten) :
    List.Forall₂ (fun (x : Typed κ Digest) part =>
      ∀ element, e.SignedBy x.keys element → element ∈ part) items parts := by
  have split {keys : List κ} {below : List (Typed κ Digest)} {rest : List (List Bytes)}
      (sub : ∀ key ∈ below.flatMap Condition.keys, key ∈ keys)
      (tells : e.TellsApart (below.flatMap Condition.keys))
      (owned : List.Forall₂ (fun (x : Typed κ Digest) part => ∀ element ∈ part,
        e.SignedBy keys element → e.SignedBy x.keys element) below rest)
      (signed : ∀ element, e.SignedBy (below.flatMap Condition.keys) element →
        element ∈ rest.flatten) :
      List.Forall₂ (fun (x : Typed κ Digest) part =>
        ∀ element, e.SignedBy x.keys element → element ∈ part) below rest := by
    induction owned with
    | nil => exact .nil
    | @cons x part below rest head tail ih =>
      rw [List.flatMap_cons] at sub tells signed
      refine .cons (fun element own => ?_) (ih (fun key member => sub key
        (List.mem_append_right _ member)) (tells.sublist (List.sublist_append_right _ _))
        fun element own => ?_)
      · refine (List.mem_append.mp (signed element own.left)).resolve_right fun later => ?_
        obtain ⟨other, among, within⟩ := List.mem_flatten.mp later
        obtain ⟨y, listed, owns⟩ := exists_of_mem_forall₂ tail among
        refine tells.not_signedBy own ((owns element within (own.left.mono sub)).mono ?_)
        exact fun key member => List.mem_flatMap.mpr ⟨y, listed, member⟩
      · refine (List.mem_append.mp (signed element own.right)).resolve_left fun first => ?_
        exact tells.not_signedBy (head element first (own.right.mono sub)) own
  exact split (fun _ => id) tells owned signed

private theorem thresh {k : Nat} {items : List (Typed κ Digest)}
    (onlooker : Onlooker search signer e witness elements)
    (guarded : Guarded context search e elements (.thresh note k items))
    (only : ∀ x ∈ items, Only search e witness elements true x) :
    Only search e witness elements true (.thresh note k items) := by
  intro stack found seen signed other among run
  have below := guarded.thresh
  rw [Search.outcomes_thresh, onlooker.policy] at found
  rw [Condition.answers_thresh] at run
  rw [Condition.keys_thresh] at signed
  have tells := guarded.tells
  rw [Condition.keys_thresh] at tells
  have opens := guarded.opens
  rw [Condition.keys_thresh] at opens
  obtain ⟨marks, count, gathered, left⟩ := Outcomes.threshold_left_out found
  have each : List.Forall₂ Outcomes.Gives (items.map search.outcomes) (items.map fun x answer taken =>
      ∃ stack, ((search.outcomes x).pick answer).witness = .stack stack ∧ taken = stack.reverse) := by
    rw [List.forall₂_map_left_iff, List.forall₂_map_right_iff, List.forall₂_same]
    exact fun x _ => ⟨fun stack found => ⟨stack, found, rfl⟩, fun stack found => ⟨stack, found, rfl⟩⟩
  obtain ⟨parts, taken, shape, rfl⟩ := Outcomes.gives_gather each (by simpa using left.length_eq) _ gathered
  obtain ⟨parts', runs, rfl, _, yes, _⟩ := run
  rw [List.forall₂_map_left_iff] at taken runs
  rw [List.forall₂_map_left_iff, List.forall₂_map_right_iff] at left
  have seenPart {part : Bool × List Bytes} (member : part ∈ parts) :
      ∀ element ∈ part.2, element ∈ witness := fun element within =>
    seen element (List.mem_reverse.mp (shape ▸ List.mem_flatMap.mpr ⟨part, member, within⟩))
  have owned : List.Forall₂ (fun (x : Typed κ Digest) part => ∀ element ∈ part,
      e.SignedBy (items.flatMap Condition.keys) element → e.SignedBy x.keys element) items
      (parts.map Prod.snd) := by
    rw [List.forall₂_map_right_iff]
    refine forall₂_imp_of_mem (fun x member part among ⟨stack, found, same⟩ element within own => ?_)
      taken
    have seen := seenPart among
    rw [same] at within seen
    obtain ⟨guarded, unique⟩ := below x member
    have run := guarded.run_pick onlooker (.inr unique) found fun element within =>
      seen element (List.mem_reverse.mpr within)
    exact (run.signedBy_of_mem onlooker.strict tells (opens.mono (fun element within =>
      onlooker.known element (seen element within)) fun _ => id)
      (fun key listed => List.mem_flatMap.mpr ⟨x, member, listed⟩) within own).1
  have signedParts := signed_parts tells owned fun element own => by
    rw [← List.flatMap_def, ← shape]
    exact List.mem_reverse.mpr (signed element own)
  rw [List.forall₂_map_right_iff] at signedParts
  have details := forall₂_imp_of_mem (fun x _ part among holds => And.intro (seenPart among) holds)
    (forall₂_and (forall₂_and taken signedParts) left.flip)
  have runs' : List.Forall₂ (fun (x : Typed κ Digest) (part : Bool × List Bytes) =>
      (∀ element ∈ part.2, element ∈ elements) ∧ x.Answers e false part.1 part.2) items parts' :=
    forall₂_imp_of_mem (fun x _ part member run => ⟨fun element within =>
      among element (List.mem_flatMap.mpr ⟨part, member, within⟩), run⟩) runs
  -- A child that was not satisfied has no signature left and is not free, so nobody satisfies it.
  have each' : List.Forall₂ (fun part part' : Bool × List Bytes =>
      (part'.1 = true → part.1 = true) ∧ (part'.1 = part.1 → part' = part)) parts parts' := by
    refine forall₂_join details runs' ?_
    rintro x member ⟨mark, part⟩ ⟨answer, part'⟩
      ⟨seen', ⟨⟨stack, found, rfl⟩, signed'⟩, left⟩ ⟨among, run⟩
    obtain ⟨guarded, unique⟩ := below x member
    have seen : ∀ element ∈ stack, element ∈ witness := fun element within =>
      seen' element (List.mem_reverse.mpr within)
    have signed : ∀ element, e.SignedBy x.keys element → element ∈ stack := fun element own =>
      List.mem_reverse.mp (signed' element own)
    refine ⟨fun yes => ?_, fun same => ?_⟩
    · by_contra no
      obtain rfl : mark = false := Bool.eq_false_iff.mpr no
      obtain rfl : answer = true := yes
      have free := guarded.isFree_of_yes onlooker (guarded.unsigned onlooker unique found signed)
        among run
      exact Bool.false_ne_true ((left rfl).symm.trans free)
    · obtain rfl : answer = mark := same
      have only : Only search e witness elements answer x := by
        cases answer with
        | true => exact only x member
        | false => exact Only.no onlooker guarded unique
      rw [only stack found seen signed part' among run]
  have marks : parts'.map Prod.fst = parts.map Prod.fst := by
    refine eq_of_forall₂_countP ?_ ?_
    · rw [List.forall₂_map_left_iff, List.forall₂_map_right_iff]
      exact each'.imp fun _ _ => And.left
    · rw [count, List.countP_map]
      exact Nat.le_of_eq (beq_iff_eq.mp yes.symm).symm
  rw [shape, eq_of_marks marks (each'.imp fun _ _ => And.right)]

/-- Nothing but the witness gives a yes. -/
theorem yes (onlooker : Onlooker search signer e witness elements)
    (guarded : Guarded context search e elements t) : Only search e witness elements true t := by
  induction t using Typed.induct with
  | leaf note l =>
    intro stack found seen signed other among run
    have built := guarded.run_pick onlooker (.inl rfl) found seen
    have tells := guarded.tells
    have opens := guarded.opens
    rw [Condition.answers_leaf] at run built
    rw [Condition.keys_leaf] at signed tells opens
    exact Leaf.eq_of_yes onlooker.strict tells opens guarded.secrets
      (fun element member => onlooker.known element (seen element (List.mem_reverse.mp member))) among
      (fun element own => List.mem_reverse.mpr (signed element own)) built run
  | wrap note w x ih => exact Only.wrap guarded (ih guarded.wrap)
  | pair note op x y ihX ihY =>
    exact Only.pair onlooker guarded (ihX guarded.pair.first) (ihY guarded.pair.second)
  | andOr note x y z ihX ihY ihZ =>
    obtain ⟨apart, _, apart'⟩ := guarded.andOr
    exact Only.andOr onlooker guarded (ihX apart.first) (ihY apart.second) (ihZ apart'.second)
  | thresh note k items ih =>
    exact Only.thresh onlooker guarded fun x member => ih x member (guarded.thresh x member).1

end Only

namespace Typed.Validated

variable {context : Context} {t : Typed κ Digest} {material : Material κ}

/-- Where the search keeps to the types, nobody who only has the signatures of the witness finds
another one that the script accepts.

This rests on signatures and hashes that are ideal, as far as the two witnesses go. `TellsApart` says that of the
signatures in the first one no key has two, no two keys share one, and none looks like something else.
`OpensOnly` and `SoleSecrets` say that the two hold no second preimage, be it of the hash of a key or of that in a
hashlock. Counts below `2 ^ 39` are script numbers that the script can read back. -/
theorem eq_witness_of_accepts (same : e.scheme = context.scheme) (valid : Validated context t)
    (top : t.type.isTopLevel = true) (nonMalleable : t.isNonMalleable context = true)
    (counts : t.CountsBelow (2 ^ 39)) (genuine : material.Genuine e (t.leafHash context))
    (byType : (t.search context .nonMalleable material).DissatisfiesByType t)
    {witness other : List Bytes} (tells : (e.thirdParty witness).TellsApart t.keys)
    (opens : e.OpensOnly (witness ++ other) t.keys) (secrets : t.SoleSecrets (witness ++ other))
    (found : t.satisfy context .nonMalleable material = .ok witness)
    (accepted : (e.thirdParty witness).accepts (t.script context).bytes other = true) :
    other = witness := by
  have onlooker : Onlooker (t.search context .nonMalleable material) { e with nullFail := true }
      (e.thirdParty witness) witness (witness ++ other) :=
    { policy := rfl
      scheme := same.symm
      genuine := ⟨genuine.verifies, genuine.length_le, genuine.opens, genuine.meetsAfter_eq,
        genuine.meetsOlder_eq⟩
      agrees := e.agrees_thirdParty witness
      strict := rfl
      known := fun _ => List.mem_append_left _ }
  have guarded : Guarded context (t.search context .nonMalleable material) (e.thirdParty witness)
      (witness ++ other) t :=
    ⟨valid, (Bool.and_eq_true_iff.mp nonMalleable).1, byType, counts, tells, opens, secrets⟩
  rw [valid.accepts_iff (show (e.thirdParty witness).scheme = _ from same) top
    (counts.mono (by decide))] at accepted
  have built : t.Answers (e.thirdParty witness) false true witness.reverse :=
    guarded.run_pick onlooker (.inl rfl) (satisfy_eq_ok.mp found) fun _ => id
  have signed (element : Bytes) (own : (e.thirdParty witness).SignedBy t.keys element) :
      element ∈ witness := by
    obtain ⟨key, _, checked⟩ := own
    exact (Evaluator.checkSig_thirdParty.mp checked).1
  have reversed := Only.yes onlooker guarded witness (satisfy_eq_ok.mp found) (fun _ => id) signed
    other.reverse (fun element member => List.mem_append_right _ (List.mem_reverse.mp member)) accepted
  exact List.reverse_injective reversed

/-- Whoever has seen a witness of two of three, and so its two signatures and its secret, has no other one. -/
theorem eq_witness_of_accepts_twoOfThree : ∃ other : List Bytes, Validated .segwit twoOfThree ∧
    twoOfThree.isNonMalleable .segwit = true ∧ twoOfThree.CountsBelow (2 ^ 39) ∧
      secondAndFourthWithSecret.Genuine .verifiesSecondAndFourth (twoOfThree.leafHash .segwit) ∧
      (twoOfThree.search .segwit .nonMalleable secondAndFourthWithSecret).DissatisfiesByType twoOfThree ∧
      (Evaluator.verifiesSecondAndFourth.thirdParty twoOfThreeWitness).TellsApart twoOfThree.keys ∧
      (Evaluator.verifiesSecondAndFourth.thirdParty twoOfThreeWitness).OpensOnly
        (twoOfThreeWitness ++ other) twoOfThree.keys ∧
      twoOfThree.SoleSecrets (twoOfThreeWitness ++ other) ∧
      twoOfThree.satisfy .segwit .nonMalleable secondAndFourthWithSecret = .ok twoOfThreeWitness ∧
      (Evaluator.verifiesSecondAndFourth.thirdParty twoOfThreeWitness).accepts
        (twoOfThree.script .segwit).bytes other = true ∧
      other = twoOfThreeWitness := by
  have nonMalleable : twoOfThree.isNonMalleable .segwit = true := by decide +kernel
  have genuine := Material.genuine_secondAndFourthWithSecret (twoOfThree.leafHash .segwit)
  have byType := dissatisfiesByType_twoOfThree
    (twoOfThree.search .segwit .nonMalleable secondAndFourthWithSecret)
  have tells : Evaluator.verifiesSecondAndFourth.TellsApart twoOfThree.keys := by
    rw [keys_twoOfThree]
    exact Evaluator.tellsApart_ofSignatures (by decide +kernel) (by decide +kernel) (by decide +kernel)
      (by decide +kernel)
  have opens : (Evaluator.verifiesSecondAndFourth.thirdParty twoOfThreeWitness).OpensOnly
      (twoOfThreeWitness ++ twoOfThreeWitness) twoOfThree.keys :=
    fun element member => opensOnly_twoOfThree element (by simpa using member)
  have sole : ∀ element ∈ twoOfThreeWitness ++ twoOfThreeWitness,
      element.length = 32 → element = secretOfOnes.toList := by
    decide +kernel
  have secrets : twoOfThree.SoleSecrets (twoOfThreeWitness ++ twoOfThreeWitness) := by
    have leaf : (ofFragment .segwit (.leaf (.digest digestOfOnes)) : Typed PointKey Digest).SoleSecrets
        (twoOfThreeWitness ++ twoOfThreeWitness) :=
      (all_ofFragment _).mpr ⟨fun secret member secret' member' wide wide' _ _ =>
        (sole secret member wide).trans (sole secret' member' wide').symm, nofun⟩
    simpa [twoOfThree, keyWithSecret, pk, Condition.SoleSecrets, Fragment.children] using leaf
  have accepted : (Evaluator.verifiesSecondAndFourth.thirdParty twoOfThreeWitness).accepts
      (twoOfThree.script .segwit).bytes twoOfThreeWitness = true := by
    decide +kernel
  exact ⟨twoOfThreeWitness, validated_twoOfThree, nonMalleable, countsBelow_twoOfThree, genuine, byType,
    tells.thirdParty, opens, secrets, satisfy_twoOfThree, accepted,
    validated_twoOfThree.eq_witness_of_accepts rfl rfl nonMalleable countsBelow_twoOfThree genuine byType
      tells.thirdParty opens secrets satisfy_twoOfThree accepted⟩

end Typed.Validated

/-- The key with a small x coordinate. -/
def XOnlyKey.ofByte (x : UInt8) : XOnlyKey :=
  ⟨(Vector.replicate 31 0).push x⟩

namespace Typed

/-- One of 67 keys. -/
def oneOfMany : Threshold XOnlyKey multiACap where
  k := 1
  items := List.map XOnlyKey.ofByte [3, 4, 6, 8, 12, 13, 14, 16, 20, 22, 25, 27, 32, 33, 38, 39, 43, 44,
    45, 47, 48, 52, 56, 57, 59, 61, 63, 64, 66, 69, 73, 74, 76, 77, 81, 82, 83, 85, 88, 89, 90, 91, 95,
    97, 102, 104, 106, 107, 110, 111, 112, 115, 118, 119, 123, 126, 129, 130, 132, 133, 136, 137, 140,
    142, 144, 145, 148]
  k_pos := by decide
  k_le := by decide
  capped := by decide +kernel

/-- Two keys together, one of many, or another one: `or_i(and_v(v:pk(A),pk(B)),multi_a(1,…))` as the
first child of an `or_d` with `pk(Z)`. The empty elements that dissatisfy the many keys take more bytes
than a signature by `A`. -/
def twoOrOneOfMany : Typed XOnlyKey Digest :=
  ofFragment .tapscript (.pair .orI
    (ofFragment .tapscript (.pair .andV
      (ofFragment .tapscript (.wrap .verify (pk .tapscript (.ofByte 1)))) (pk .tapscript (.ofByte 2))))
    (ofFragment .tapscript (.leaf (.multiA oneOfMany))))

def groupsOrLast : Typed XOnlyKey Digest :=
  ofFragment .tapscript (.pair .orD twoOrOneOfMany (pk .tapscript (.ofByte 151)))

theorem validated_groupsOrLast : Validated .tapscript groupsOrLast := by
  have pk (x : UInt8) : Validated .tapscript (pk .tapscript (.ofByte x) : Typed XOnlyKey Digest) :=
    validated_pk rfl
  have composed {fragment : Fragment XOnlyKey Digest (Typed XOnlyKey Digest)}
      (fits : composes .tapscript fragment = true)
      (below : ∀ x ∈ fragment.children, Validated .tapscript x) := validated_ofFragment fits below
  refine composed (by decide +kernel) (List.forall_mem_cons.mpr ⟨?_, List.forall_mem_singleton.mpr (pk 151)⟩)
  refine composed (by decide +kernel) (List.forall_mem_cons.mpr ⟨?_, List.forall_mem_singleton.mpr ?_⟩)
  · refine composed (by decide +kernel) (List.forall_mem_cons.mpr ⟨?_, List.forall_mem_singleton.mpr (pk 2)⟩)
    exact composed (by decide +kernel) (List.forall_mem_singleton.mpr (pk 1))
  · exact composed (by decide +kernel) nofun

theorem ascending_groupsOrLast : groupsOrLast.keys.Pairwise fun a b => compare a b = .lt := by
  have transitive : IsTrans XOnlyKey fun a b => compare a b = .lt := by
    refine ⟨fun a b c (less : compare a.bytes b.bytes = .lt) less' => ?_⟩
    exact show compare a.bytes c.bytes = .lt from Std.TransCmp.lt_trans less less'
  rw [← List.isChain_iff_pairwise]
  decide +kernel

theorem checkSanity_groupsOrLast : groupsOrLast.checkSanity .tapscript .none = .ok () :=
  checkSanity_eq_ok.mpr ⟨by decide +kernel, by decide +kernel, by decide +kernel,
    hasRepetition_eq_false ascending_groupsOrLast, by decide +kernel⟩

/-- The search takes the signature by `A` into the witness, although it is not needed. A third party can
leave it out. -/
theorem exists_other_witness : ∃ (t : Typed XOnlyKey Digest) (e : Evaluator)
    (material : Material XOnlyKey) (witness other : List Bytes), Validated .tapscript t ∧
      t.type.isTopLevel = true ∧ t.checkSanity .tapscript .none = .ok () ∧
      (t.All fun fragment => ∀ key, fragment ≠ .leaf (.keyHash key)) ∧ e.scheme = .schnorr ∧
      material.Genuine e (t.leafHash .tapscript) ∧ (e.thirdParty witness).TellsApart t.keys ∧
      t.satisfy .tapscript .nonMalleable material = .ok witness ∧
      (e.thirdParty witness).accepts (t.script .tapscript).bytes other = true ∧ other ≠ witness := by
  let first : XOnlyKey := .ofByte 1
  let last : XOnlyKey := .ofByte 151
  let e := Evaluator.ofSignatures .schnorr
    [(first.bytes, List.replicate 64 0x11), (last.bytes, List.replicate 64 0x22)]
  let material : Material XOnlyKey := { Material.none with
    schnorr := fun key _ =>
      if key = first then some (List.replicate 64 0x11)
      else if key = last then some (List.replicate 64 0x22) else none }
  have genuine : material.Genuine e (groupsOrLast.leafHash .tapscript) := by
    have signed {key : XOnlyKey} {signature : Bytes}
        (found : material.signature? e.scheme (groupsOrLast.leafHash .tapscript) key = some signature) :
        key = first ∧ signature = List.replicate 64 0x11 ∨
          key = last ∧ signature = List.replicate 64 0x22 := by
      change (if key = first then _ else _) = _ at found
      split at found
      next same => exact .inl ⟨same, (Option.some.inj found).symm⟩
      next =>
        obtain ⟨same, found⟩ := Option.ite_none_right_eq_some.mp found
        exact .inr ⟨same, (Option.some.inj found).symm⟩
    refine ⟨fun key signature found => ?_, fun key signature found => ?_, nofun, fun _ => rfl,
      fun _ => rfl⟩
    · obtain ⟨rfl, rfl⟩ | ⟨rfl, rfl⟩ := signed found
      · exact Evaluator.checkSig_ofSignatures.mpr ⟨nofun, List.mem_cons_self⟩
      · exact Evaluator.checkSig_ofSignatures.mpr
          ⟨nofun, List.mem_cons_of_mem _ List.mem_cons_self⟩
    · obtain ⟨_, rfl⟩ | ⟨_, rfl⟩ := signed found <;> decide
  have tells : e.TellsApart groupsOrLast.keys := by
    refine Evaluator.tellsApart_ofSignatures ?_ (by decide +kernel) (by decide) fun entry member => ?_
    · refine List.pairwise_map.mpr (ascending_groupsOrLast.imp fun {key other} less same => ?_)
      have equal : compare key.bytes other.bytes = .eq := Std.ReflCmp.cmp_eq_of_eq same
      exact Ordering.noConfusion (less.symm.trans equal)
    · have wide : entry.2.length = 64 := by
        revert entry
        decide
      refine ⟨fun one => ?_, by rw [wide]; decide, fun key _ same => ?_⟩
      · rw [one] at wide
        cases wide
      · rw [same] at wide
        exact absurd (key.x.length_toList.symm.trans wide) (by decide)
  have found : groupsOrLast.satisfy .tapscript .nonMalleable material =
      .ok [List.replicate 64 0x22, [], List.replicate 64 0x11, [1]] := by
    decide +kernel
  have accepted : (e.thirdParty [List.replicate 64 0x22, [], List.replicate 64 0x11, [1]]).accepts
      (groupsOrLast.script .tapscript).bytes (List.replicate 64 0x22 :: List.replicate 68 []) = true := by
    decide +kernel
  refine ⟨groupsOrLast, e, material, _, _, validated_groupsOrLast, by decide +kernel, checkSanity_groupsOrLast, ?_,
    rfl, genuine, tells.thirdParty, found, accepted, by decide⟩
  simp [groupsOrLast, twoOrOneOfMany, pk, Fragment.children]

end Typed

end LockScript
