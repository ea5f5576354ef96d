import LockScript.Proofs.StackDepth
import LockScript.Proofs.WitnessBound

/-! # Bounds on runs

A budget also says what it takes to run the script of a condition on a witness. A bound on that is shown
template by template: if it passes from the runs of the children to the run of a fragment, each time with
the usage that the budget makes of theirs, then it holds for every run on a witness that a search found,
as long as the search dissatisfies by type.
-/

namespace LockScript

/-- A bound on how a script of some base type runs on the elements that it takes, for a usage. -/
abbrev RunBound := Base → Script → List Bytes → Usage Nat → Prop

/-- What the children of a threshold use is part of what the threshold does. -/
structure Usage.Gathers (whole : Usage Nat) (parts : List (Usage Nat)) : Prop where
  execItems : ∀ part ∈ parts, part.execItems + 1 ≤ whole.execItems
  execOpcodes : (parts.map Usage.execOpcodes).sum ≤ whole.execOpcodes

/-- The run of a child of a threshold. -/
structure PartRun where
  answer : Bool
  taken : List Bytes
  usage : Usage Nat

/-- A bound passes from the runs of the children of any fragment to that of the fragment. -/
structure RunBound.Composes (e : Evaluator) (within : RunBound) : Prop where
  worst {base script taken u} (other : Usage Nat) : within base script taken u →
    within base script taken (u.worst other) ∧ within base script taken (other.worst u)
  select {base script taken u} (size : Nat) : within base script taken u →
    within base script taken (u.withSelector size)
  alt {script taken u} : within .B script taken u → within .W (Script.wrap .alt script) taken u
  swap {script a u} : within .B script [a] u → within .W (Script.wrap .swap script) [a] u
  check {script taken u} : within .K script taken u → within .B (Script.wrap .check script) taken u
  verify {script taken u} : within .B script taken u → within .V (Script.wrap .verify script) taken u
  zeroNotEqual {script taken u} : within .B script taken u →
    within .B (Script.wrap .zeroNotEqual script) taken u
  dupIf {script u} : script.Nested → within .V script [] u →
    within .B (Script.wrap .dupIf script) [[1]] u
  dupIf_skipped {script} : script.Nested →
    within .B (Script.wrap .dupIf script) [[]] Usage.emptyElement
  nonzero {script top taken u} : script.Nested → top.length < 2 ^ 39 → within .B script (top :: taken) u →
    within .B (Script.wrap .nonzero script) (top :: taken) u
  nonzero_skipped {script} : script.Nested →
    within .B (Script.wrap .nonzero script) [[]] Usage.emptyElement
  andV {base sx sy upper lower u v} {rel : AnswerRel} : base ≠ .W → e.Balanced sx → e.AnswersV rel sx →
    rel true upper → within .V sx upper u → within base sy lower v →
      within base (Script.pair .andV sx sy) (upper ++ lower) (u.followedBy v 0)
  join {op sx sy upper lower u v answer unit} {rel : AnswerRel} : op = .andB ∨ op = .orB → e.Balanced sx →
    e.AnswersB rel unit sx → rel answer upper → within .B sx upper u → within .W sy lower v →
      within .B (Script.pair op sx sy) (upper ++ lower) (u.followedBy v 1)
  orC_skipped {sx sy upper u} {rel : AnswerRel} : e.Balanced sx → e.AnswersB rel true sx → sy.Nested →
    rel true upper → within .B sx upper u → within .V (Script.pair .orC sx sy) upper u
  orC {sx sy upper lower u v} {rel : AnswerRel} : e.Balanced sx → e.AnswersB rel true sx → sy.Nested →
    rel false upper → within .B sx upper u → within .V sy lower v →
      within .V (Script.pair .orC sx sy) (upper ++ lower) (u.followedBy v 0)
  orD_skipped {sx sy upper other u} {rel : AnswerRel} : e.Balanced sx → e.AnswersB rel true sx →
    sy.Nested → rel true upper → rel false other → within .B sx upper u →
      within .B (Script.pair .orD sx sy) upper u
  orD {sx sy upper lower u v} {rel : AnswerRel} (shift : Nat) : e.Balanced sx → e.AnswersB rel true sx →
    sy.Nested → rel false upper → within .B sx upper u → within .B sy lower v →
      within .B (Script.pair .orD sx sy) (upper ++ lower) (u.followedBy v shift)
  orI {base sx sy taken u} (value : Bool) : base ≠ .W → e.Balanced sx → sx.Nested → sy.Nested →
    within base (if value = true then sx else sy) taken u →
      within base (Script.pair .orI sx sy) (Bytes.writeBool value :: taken) u
  andOr {base sx sy sz upper lower u v answer} {rel : AnswerRel} : base ≠ .W → e.Balanced sx →
    e.AnswersB rel true sx → rel answer upper → e.Balanced sz → sz.Nested → sy.Nested →
      within .B sx upper u → within base (if answer = false then sz else sy) lower v →
        within base (Script.andOr sx sy sz) (upper ++ lower) (u.followedBy v 0)
  threshold {α : Type} {rels : α → AnswerRel} {scripts : α → Script} {k first items own parts whole} :
    e.AnswersB (rels first) true (scripts first) → e.Balanced (scripts first) →
      (∀ x ∈ items, e.AnswersW (rels x) true (scripts x)) → (∀ x ∈ items, e.Balanced (scripts x)) →
        rels first own.answer own.taken → within .B (scripts first) own.taken own.usage →
          List.Forall₂ (fun x (part : PartRun) => rels x part.answer part.taken ∧
            within .W (scripts x) part.taken part.usage) items parts →
            whole.Gathers ((own :: parts).map PartRun.usage) →
              within .B (Script.threshold k ((first :: items).map scripts))
                ((own :: parts).flatMap PartRun.taken) whole

/-- A usage is known, and something holds of it. -/
def Covers (holds : Usage Nat → Prop) (usage : Option (Usage Nat)) : Prop :=
  ∃ u, usage = some u ∧ holds u

namespace Covers

variable {shift : Nat} {holds holds' : Usage Nat → Prop} {usage usage' : Option (Usage Nat)}

theorem of_some (covers : Covers holds usage) {u : Usage Nat} (found : usage = some u) : holds u := by
  obtain ⟨u', found', covered⟩ := covers
  obtain rfl := Option.some.inj (found.symm.trans found')
  exact covered

theorem imp (covers : Covers holds usage) (imp : ∀ u, holds u → holds' u) : Covers holds' usage := by
  obtain ⟨u, found, covered⟩ := covers
  exact ⟨u, found, imp u covered⟩

theorem followedBy {both : Usage Nat → Prop} (first : Covers holds usage) (second : Covers holds' usage')
    (join : ∀ u v, holds u → holds' v → both (u.followedBy v shift)) :
    Covers both (Usage.followedBy? usage usage' shift) := by
  obtain ⟨u, rfl, covered⟩ := first
  obtain ⟨v, rfl, covered'⟩ := second
  exact ⟨_, rfl, join u v covered covered'⟩

theorem left (covers : Covers holds usage) (worst : ∀ u other, holds u → holds (u.worst other)) :
    Covers holds (Usage.worst? usage usage') := by
  obtain ⟨u, rfl, covered⟩ := covers
  cases usage' with
  | none => exact ⟨u, rfl, covered⟩
  | some other => exact ⟨_, rfl, worst u other covered⟩

theorem right (covers : Covers holds usage') (worst : ∀ u (other : Usage Nat), holds u → holds (other.worst u)) :
    Covers holds (Usage.worst? usage usage') := by
  obtain ⟨u, rfl, covered⟩ := covers
  cases usage with
  | none => exact ⟨u, rfl, covered⟩
  | some other => exact ⟨_, rfl, worst u other covered⟩

theorem select (covers : Covers holds usage) (size : Nat) (selects : ∀ u, holds u → holds' (u.withSelector size)) :
    Covers holds' (usage.map (·.withSelector size)) := by
  obtain ⟨u, rfl, covered⟩ := covers
  exact ⟨_, rfl, selects u covered⟩

end Covers

/-- As many children are satisfied as a threshold asks for, or none of them. -/
theorem Budget.gathers_threshold {k : Nat} {budgets : List (Budget Nat)} {answer : Bool} {u : Usage Nat}
    (found : (Budget.threshold k budgets).pick answer = some u) {parts : List (Bool × Usage Nat)}
    (each : List.Forall₂ (fun budget part => budget.pick part.1 = some part.2) budgets parts)
    (exact : if answer then parts.countP Prod.fst = k else ∀ part ∈ parts, part.1 = false) :
    u.Gathers (parts.map Prod.snd) := by
  rw [Budget.threshold_eq] at found
  have low {usage : Usage Nat} (member : usage ∈ parts.map Prod.snd) :
      usage.execItems ≤ Quantity.largest (Budget.execs budgets) := by
    obtain ⟨part, among, rfl⟩ := List.mem_map.mp member
    obtain ⟨budget, own, picked⟩ := exists_of_mem_forall₂ each among
    refine Quantity.le_largest (List.mem_flatMap.mpr ⟨budget, own, ?_⟩)
    refine List.mem_map_of_mem (List.mem_append.mpr ?_)
    cases yes : part.1 with
    | true => exact .inl (Option.mem_toList.mpr (by rwa [yes] at picked))
    | false => exact .inr (Option.mem_toList.mpr (by rwa [yes] at picked))
  cases answer with
  | true =>
    change Usage.threshold? k _ _ = some u at found
    obtain ⟨items, known⟩ := Usage.threshold?_eq_some.mp found
    have each' : List.Forall₂ (fun pair part =>
        ∃ s, Usage.forAnswer part.1 pair = some s ∧ part.2 ≤ s.execOpcodes)
        (budgets.map fun x => (x.sat, x.dissat)) (parts.map fun part => (part.1, part.2.execOpcodes)) := by
      rw [List.forall₂_map_left_iff, List.forall₂_map_right_iff]
      exact each.imp fun _ part picked => ⟨part.2, picked, Nat.le_refl _⟩
    obtain ⟨total, known', le⟩ := Usage.exists_thresholdMeasure? each'
      ((List.countP_map ..).trans exact)
    obtain rfl := Option.some.inj ((known .execOpcodes).symm.trans known')
    refine ⟨fun part member => items ▸ Nat.succ_le_succ (low member), ?_⟩
    rw [List.map_map] at le ⊢
    exact le
  | false =>
    change Usage.thresholdNone? _ _ = some u at found
    have shape : budgets.map Budget.dissat = (parts.map Prod.snd).map some := by
      rw [List.map_map]
      refine List.forall₂_eq_eq_eq.le _ _ ?_
      rw [List.forall₂_map_left_iff, List.forall₂_map_right_iff]
      refine forall₂_imp_of_mem (fun budget _ part member run => ?_) each
      have picked := run
      rwa [exact part member] at picked
    rw [shape, Usage.thresholdNone?_map_some] at found
    cases found
    exact ⟨fun part member => Nat.succ_le_succ (low member), Nat.le_refl _⟩

namespace Typed

variable {κ : Type} [PublicKey κ]

/-- The bound holds for the leaves of a condition. -/
def LeavesWithin (within : RunBound) (context : Context) : Typed κ Digest → Prop :=
  Condition.All fun
    | .leaf l => ∀ base answer taken u, base ≠ .W → (Budget.ofLeaf context l).pick answer = some u →
        within base (Script.ofLeaf context l) taken u
    | _ => True

/-- The bound holds for a run of a condition with the usage of a budget. -/
def Keeps (within : RunBound) (context : Context) (t : Typed κ Digest) (budget : Budget Nat) : AnswerRel :=
  fun answer taken => ∀ u, budget.pick answer = some u →
    within t.type.soundness.base (t.script context) taken u

/-- A run of a condition with a usage that its budget knows. -/
structure Ran (within : RunBound) (e : Evaluator) (context : Context) (t : Typed κ Digest) (answer : Bool)
    (taken : List Bytes) : Prop where
  fits : t.Fits e answer taken
  known : Covers (within t.type.soundness.base (t.script context) taken)
    ((t.exactBudget context).pick answer)

section Node

variable {within : RunBound} {context : Context} {e : Evaluator} {matters : Prop} {t : Typed κ Digest}
  {budget : Budget Nat} {answer : Bool} {taken : List Bytes}

theorem Keeps.withoutMixedPaths (keeps : t.Keeps within context budget answer taken) :
    t.Keeps within context budget.withoutMixedPaths answer taken := by
  refine fun u found => keeps u ?_
  cases answer with
  | false => exact (Option.ite_none_right_eq_some.mp found).2
  | true => exact (Option.ite_none_right_eq_some.mp found).2

theorem Ran.covers {base : Base} (ran : t.Ran within e context answer taken)
    (typed : t.type.soundness.base = base) :
    Covers (within base (t.script context) taken) ((t.exactBudget context).pick answer) :=
  typed ▸ ran.known

end Node

namespace Validated

variable {within : RunBound} {context : Context} {e : Evaluator} {search : Search κ}
  {matters : Typed κ Digest → Prop} {note : Attributes} {x y z : Typed κ Digest}

private theorem keeps_wrap (composes : within.Composes e) {w : Wrapper}
    (valid : Validated context (.wrap note w x)) (descends : search.Descends matters (.wrap note w x))
    (below : (search.outcomes x).Gives (.Where (matters x) (x.Ran within e context))) :
    (Outcomes.wrap w (search.outcomes x)).Gives (.Where (matters (.wrap note w x))
      (Keeps within context (.wrap note w x) (Budget.wrap w (x.exactBudget context)))) := by
  have validX := valid.wrap.1
  have nested := Script.nested_script context x
  have whole {answer : Bool} {taken : List Bytes}
      (covers : Covers (within note.type.soundness.base (Script.wrap w (x.script context)) taken)
        ((Budget.wrap w (x.exactBudget context)).pick answer)) :
      Keeps within context (.wrap note w x) (Budget.wrap w (x.exactBudget context)) answer taken := by
    intro u found
    rw [Condition.script_wrap]
    exact covers.of_some found
  -- Four wrappers answer as their child does, within its budget.
  have passing (matter : matters (.wrap note w x) → matters x)
      (pick : (Budget.wrap w (x.exactBudget context)).pick = (x.exactBudget context).pick)
      (step : ∀ {answer : Bool} {taken : List Bytes} {u : Usage Nat},
        x.Ran within e context answer taken →
        within x.type.soundness.base (x.script context) taken u →
          within note.type.soundness.base (Script.wrap w (x.script context)) taken u) :
      (search.outcomes x).Gives (.Where (matters (.wrap note w x))
        (Keeps within context (.wrap note w x) (Budget.wrap w (x.exactBudget context)))) := by
    have run {answer : Bool} {taken : List Bytes}
        (runs : AnswerRel.Where (matters x) (x.Ran within e context) answer taken) :
        AnswerRel.Where (matters (.wrap note w x))
          (Keeps within context (.wrap note w x) (Budget.wrap w (x.exactBudget context))) answer taken := by
      intro may
      have ran := runs (may.imp_right matter)
      refine whole ?_
      rw [pick]
      exact ran.known.imp fun _ kept => step ran kept
    exact ⟨below.sat.mono fun _ => run, below.dissat.mono fun _ => run⟩
  have zero : Witness.pushZero.Gives (· = [[]]) := Witness.gives_stack.mpr rfl
  have one : Witness.pushOne.Gives (· = [[1]]) := Witness.gives_stack.mpr rfl
  cases w with
  | alt =>
    refine passing (descends (by decide) (by decide)) rfl fun ran kept => ?_
    obtain ⟨base, same⟩ := Soundness.alt_eq_ok.mp valid.soundness_wrap
    rw [base] at kept
    rw [← same]
    exact composes.alt kept
  | swap =>
    refine passing (descends (by decide) (by decide)) rfl fun ran kept => ?_
    obtain ⟨base, single, same⟩ := Soundness.swap_eq_ok.mp valid.soundness_wrap
    obtain ⟨a, rfl⟩ := List.length_eq_one_iff.mp ((validX.allows ran.fits.1).of_isOne single)
    rw [base] at kept
    rw [← same]
    exact composes.swap kept
  | check =>
    refine passing (descends (by decide) (by decide)) rfl fun ran kept => ?_
    obtain ⟨base, same⟩ := Soundness.check_eq_ok.mp valid.soundness_wrap
    rw [base] at kept
    rw [← same]
    exact composes.check kept
  | zeroNotEqual =>
    refine passing (descends (by decide) (by decide)) rfl fun ran kept => ?_
    obtain ⟨base, same⟩ := Soundness.zeroNotEqual_eq_ok.mp valid.soundness_wrap
    rw [base] at kept
    rw [← same]
    change within x.type.soundness.base _ _ _
    rw [base]
    exact composes.zeroNotEqual kept
  | verify =>
    obtain ⟨base, same⟩ := Soundness.verify_eq_ok.mp valid.soundness_wrap
    rw [← same] at whole
    refine ⟨below.sat.mono fun taken runs _ => whole ?_, Witness.gives_impossible⟩
    exact ((runs (.inl rfl)).covers base).imp fun _ kept => composes.verify kept
  | dupIf =>
    obtain ⟨base, nothing, same⟩ := Soundness.dupIf_eq_ok.mp valid.soundness_wrap
    rw [← same] at whole
    refine ⟨(below.sat.below one).mono ?_, zero.mono ?_⟩
    · rintro _ ⟨_, taken, rfl, rfl, runs⟩ _
      have ran := runs (.inl rfl)
      have none := validX.allows ran.fits.1
      rw [nothing] at none
      obtain rfl : taken = [] := none
      exact whole ((ran.covers base).select 2 fun _ kept =>
        composes.select 2 (composes.dupIf nested kept))
    · rintro _ rfl _
      exact whole ⟨.emptyElement, rfl, composes.dupIf_skipped nested⟩
  | nonzero =>
    obtain ⟨base, nonzero, same⟩ := Soundness.nonzero_eq_ok.mp valid.soundness_wrap
    simp only [← same, base] at whole
    refine ⟨below.sat.mono fun taken runs _ => ?_, zero.mono ?_⟩
    · have ran := runs (.inl rfl)
      obtain ⟨top, rest, rfl⟩ :=
        List.exists_cons_of_ne_nil ((validX.allows ran.fits.1).of_isNonzero nonzero)
      have short := ran.fits.2.short top List.mem_cons_self
      exact whole ((ran.covers base).imp fun _ kept => composes.nonzero nested short kept)
    · rintro _ rfl _
      exact whole ⟨.emptyElement, rfl, composes.nonzero_skipped nested⟩

section Runs

variable {a b : Bool} {taken : List Bytes}

private theorem covers_andV (composes : within.Composes e) (same : e.scheme = context.scheme)
    (validX : Validated context x) (baseX : x.type.soundness.base = .V)
    (stackLike : y.type.soundness.base ≠ .W)
    (run : AnswerRel.Both (x.Ran within e context) (y.Ran within e context) true true taken) :
    Covers (within y.type.soundness.base (Script.pair .andV (x.script context) (y.script context)) taken)
      (Usage.followedBy? ((x.exactBudget context).pick true) ((y.exactBudget context).pick true) 0) := by
  obtain ⟨upper, lower, rfl, ranX, ranY⟩ := run
  exact (ranX.covers baseX).followedBy ranY.known fun _ _ =>
    composes.andV stackLike (e.balanced_script context x) (validX.answersV same baseX) ranX.fits.1

/-- The second child runs below the answer of the first, and an opcode joins the answers. -/
private theorem covers_joined (composes : within.Composes e) (same : e.scheme = context.scheme)
    (validX : Validated context x) (baseX : x.type.soundness.base = .B)
    (baseY : y.type.soundness.base = .W) {op : Connective} (joins : op = .andB ∨ op = .orB)
    (run : AnswerRel.Both (x.Ran within e context) (y.Ran within e context) a b taken) :
    Covers (within .B (Script.pair op (x.script context) (y.script context)) taken)
      (Usage.followedBy? ((x.exactBudget context).pick a) ((y.exactBudget context).pick b) 1) := by
  obtain ⟨upper, lower, rfl, ranX, ranY⟩ := run
  exact (ranX.covers baseX).followedBy (ranY.covers baseY) fun _ _ =>
    composes.join joins (e.balanced_script context x) (validX.answersB same baseX) ranX.fits.1

end Runs

private theorem keeps_orI (composes : within.Composes e) (valid : Validated context (.pair note .orI x y))
    (descends : search.Descends matters (.pair note .orI x y))
    (first : (search.outcomes x).Gives (.Where (matters x) (x.Ran within e context)))
    (second : (search.outcomes y).Gives (.Where (matters y) (y.Ran within e context))) :
    (Outcomes.pair search.policy .orI (search.outcomes x) (search.outcomes y)).Gives
      (.Where (matters (.pair note .orI x y)) (Keeps within context (.pair note .orI x y)
        (Budget.pair .orI (x.exactBudget context) (y.exactBudget context)))) := by
  obtain ⟨equal, stackLike, same⟩ := Soundness.orI_eq_ok.mp valid.soundness_pair
  have balanced := e.balanced_script context x
  have nestedX := Script.nested_script context x
  have nestedY := Script.nested_script context y
  have whole {answer : Bool} {taken : List Bytes}
      (covers : Covers
          (within y.type.soundness.base (Script.pair .orI (x.script context) (y.script context)) taken)
          ((Budget.pair .orI (x.exactBudget context) (y.exactBudget context)).pick answer)) :
      Keeps within context (.pair note .orI x y)
        (Budget.pair .orI (x.exactBudget context) (y.exactBudget context)) answer taken := by
    intro u found
    rw [Condition.script_pair]
    change within note.type.soundness.base _ _ _
    rw [← same]
    exact covers.of_some found
  have one : Witness.pushOne.Gives (· = [[1]]) := Witness.gives_stack.mpr rfl
  have zero : Witness.pushZero.Gives (· = [[]]) := Witness.gives_stack.mpr rfl
  have left (answer : Bool) (mayX : answer = true ∨ matters x) :
      (((search.outcomes x).pick answer).select .pushOne).witness.Gives (Keeps within context (.pair note .orI x y)
        (Budget.pair .orI (x.exactBudget context) (y.exactBudget context)) answer) := by
    refine ((first.pick answer).below one).mono ?_
    rintro _ ⟨_, taken, rfl, rfl, runs⟩
    have covers := ((runs mayX).covers equal).select 2 fun _ kept =>
      composes.select 2 (composes.orI true stackLike balanced nestedX nestedY kept)
    refine whole ?_
    cases answer <;> exact covers.left fun _ other kept => (composes.worst other kept).1
  have right (answer : Bool) (mayY : answer = true ∨ matters y) :
      (((search.outcomes y).pick answer).select .pushZero).witness.Gives (Keeps within context (.pair note .orI x y)
        (Budget.pair .orI (x.exactBudget context) (y.exactBudget context)) answer) := by
    refine ((second.pick answer).below zero).mono ?_
    rintro _ ⟨_, taken, rfl, rfl, runs⟩
    have covers := (runs mayY).known.select 1 fun _ kept =>
      composes.select 1 (composes.orI false stackLike balanced nestedX nestedY kept)
    refine whole ?_
    cases answer <;> exact covers.right fun _ other kept => (composes.worst other kept).2
  constructor
  · exact (Satisfaction.gives_choose search.policy (left true (.inl rfl)) (right true (.inl rfl))).mono
      fun _ keeps _ => keeps
  · intro stack found may
    obtain ⟨mayX, taken⟩ | ⟨mayY, taken⟩ := descends (may.resolve_left Bool.false_ne_true)
    · exact left false (.inr mayX) stack (taken.symm.trans found)
    · exact right false (.inr mayY) stack (taken.symm.trans found)

private theorem keeps_pair (composes : within.Composes e) {op : Connective}
    (same : e.scheme = context.scheme) (valid : Validated context (.pair note op x y))
    (descends : search.Descends matters (.pair note op x y))
    (first : (search.outcomes x).Gives (.Where (matters x) (x.Ran within e context)))
    (second : (search.outcomes y).Gives (.Where (matters y) (y.Ran within e context)))
    (exists_no : matters x → ∃ taken, x.Answers e false false taken) (other : op ≠ .orI) :
    (Outcomes.pair search.policy op (search.outcomes x) (search.outcomes y)).Gives
      (.Where (matters (.pair note op x y)) (Keeps within context (.pair note op x y)
        (Budget.pair op (x.exactBudget context) (y.exactBudget context)))) := by
  obtain ⟨validX, validY, _⟩ := valid.pair
  have balanced := e.balanced_script context x
  have nestedY := Script.nested_script context y
  have whole {answer : Bool} {taken : List Bytes}
      (covers : Covers
          (within note.type.soundness.base (Script.pair op (x.script context) (y.script context)) taken)
          ((Budget.pair op (x.exactBudget context) (y.exactBudget context)).pick answer)) :
      Keeps within context (.pair note op x y)
        (Budget.pair op (x.exactBudget context) (y.exactBudget context)) answer taken := by
    intro u found
    rw [Condition.script_pair]
    exact covers.of_some found
  have worst {base : Base} {script : Script} {taken : List Bytes} (u other : Usage Nat)
      (kept : within base script taken u) := composes.worst other kept
  have both := first.both second
  cases op with
  | andV =>
    obtain ⟨baseX, stackLike, typed⟩ := Soundness.andV_eq_ok.mp valid.soundness_pair
    simp only [← typed] at whole
    refine ⟨(both true true).mono fun taken runs _ => whole ?_,
      (both true false).mono fun taken _ _ u found => by cases found⟩
    exact covers_andV composes same validX baseX stackLike (runs.of_where (.inl rfl) (.inl rfl))
  | andB =>
    obtain ⟨baseX, baseY, typed⟩ := Soundness.andB_eq_ok.mp valid.soundness_pair
    simp only [← typed] at whole
    have joined {answer : Bool} {taken : List Bytes}
        (run : AnswerRel.Both (x.Ran within e context) (y.Ran within e context) answer answer taken) :
        Keeps within context (.pair note .andB x y)
          (Budget.pair .andB (x.exactBudget context) (y.exactBudget context)) answer taken := by
      have covers := covers_joined composes same validX baseX baseY (.inl rfl) run
      cases answer <;> exact whole covers
    refine ⟨(both true true).mono fun taken runs _ => ?_, (both false false).mono fun taken runs may => ?_⟩
    · exact joined (runs.of_where (.inl rfl) (.inl rfl))
    · obtain ⟨mayX, mayY⟩ := descends (may.resolve_left Bool.false_ne_true)
      exact joined (runs.of_where (.inr mayX) (.inr mayY))
  | orB =>
    obtain ⟨baseX, baseY, _, _, typed⟩ := Soundness.orB_eq_ok.mp valid.soundness_pair
    simp only [← typed] at whole
    have joined {a b : Bool} {taken : List Bytes}
        (runs : AnswerRel.Both (.Where (matters x) (x.Ran within e context))
          (.Where (matters y) (y.Ran within e context)) a b taken) :=
      covers_joined composes same validX baseX baseY (.inr rfl)
        (runs.of_where (.inr descends.1) (.inr descends.2))
    refine ⟨Satisfaction.gives_choose search.policy ((both false true).mono fun taken runs _ => whole ?_)
      ((both true false).mono fun taken runs _ => whole ?_),
      (both false false).mono fun taken runs _ => whole (joined runs)⟩
    · exact (joined runs).right fun u other kept => (worst u other kept).2
    · exact (joined runs).left fun u other kept => (worst u other kept).1
  | orD =>
    obtain ⟨_, unit, baseX, baseY, typed⟩ := Soundness.orD_eq_ok.mp valid.soundness_pair
    have answersX := validX.answersB same baseX
    rw [unit] at answersX
    simp only [← typed] at whole
    obtain ⟨mayX, mayY⟩ := descends
    obtain ⟨other, refused⟩ := exists_no mayX
    have decided (b : Bool) (taken : List Bytes) (shift : Nat)
        (run : AnswerRel.Both (x.Ran within e context) (y.Ran within e context) false b taken) :
        Covers (within .B (Script.pair .orD (x.script context) (y.script context)) taken)
          (Usage.followedBy? ((x.exactBudget context).pick false) ((y.exactBudget context).pick b) shift) := by
      obtain ⟨upper, lower, rfl, ranX, ranY⟩ := run
      exact (ranX.covers baseX).followedBy (ranY.covers baseY) fun _ _ =>
        composes.orD shift balanced answersX nestedY ranX.fits.1
    refine ⟨Satisfaction.gives_choose search.policy (first.sat.mono fun taken runs _ => whole ?_)
      ((both false true).mono fun taken runs _ => whole ?_),
      (both false false).mono fun taken runs may => whole ?_⟩
    · have ran := runs (.inl rfl)
      exact ((ran.covers baseX).imp fun _ =>
        composes.orD_skipped balanced answersX nestedY ran.fits.1 refused).left
          fun u other kept => (worst u other kept).1
    · exact (decided true taken 0 (runs.of_where (.inr mayX) (.inl rfl))).right
        fun u other kept => (worst u other kept).2
    · exact decided false taken 1 (runs.of_where (.inr mayX) (may.imp_right mayY))
  | orC =>
    obtain ⟨_, unit, baseX, baseY, typed⟩ := Soundness.orC_eq_ok.mp valid.soundness_pair
    have answersX := validX.answersB same baseX
    rw [unit] at answersX
    simp only [← typed] at whole
    refine ⟨Satisfaction.gives_choose search.policy (first.sat.mono fun taken runs _ => whole ?_)
      ((both false true).mono fun taken runs _ => whole ?_), Witness.gives_impossible⟩
    · have ran := runs (.inl rfl)
      exact ((ran.covers baseX).imp fun _ =>
        composes.orC_skipped balanced answersX nestedY ran.fits.1).left
          fun u other kept => (worst u other kept).1
    · obtain ⟨upper, lower, rfl, ranX, ranY⟩ := runs.of_where (.inr descends) (.inl rfl)
      exact ((ranX.covers baseX).followedBy (ranY.covers baseY) fun _ _ =>
        composes.orC balanced answersX nestedY ranX.fits.1).right fun u other kept => (worst u other kept).2
  | orI => exact absurd rfl other

private theorem keeps_andOr (composes : within.Composes e) (same : e.scheme = context.scheme)
    (valid : Validated context (.andOr note x y z)) (descends : search.Descends matters (.andOr note x y z))
    (first : (search.outcomes x).Gives (.Where (matters x) (x.Ran within e context)))
    (second : (search.outcomes y).Gives (.Where (matters y) (y.Ran within e context)))
    (third : (search.outcomes z).Gives (.Where (matters z) (z.Ran within e context))) :
    (Outcomes.andOr search.policy (search.outcomes x) (search.outcomes y) (search.outcomes z)).Gives
      (.Where (matters (.andOr note x y z)) (Keeps within context (.andOr note x y z)
        (Budget.andOr (x.exactBudget context) (y.exactBudget context) (z.exactBudget context)))) := by
  obtain ⟨mayX, mayZ⟩ := descends
  obtain ⟨validX, _, _, _⟩ := valid.andOr
  obtain ⟨_, unit, baseX, equal, stackLike, typed⟩ := Soundness.andOr_eq_ok.mp valid.soundness_andOr
  have answersX := validX.answersB same baseX
  rw [unit] at answersX
  have whole {answer : Bool} {taken : List Bytes}
      (covers : Covers
          (within z.type.soundness.base
            (Script.andOr (x.script context) (y.script context) (z.script context)) taken)
          ((Budget.andOr (x.exactBudget context) (y.exactBudget context) (z.exactBudget context)).pick
            answer)) :
      Keeps within context (.andOr note x y z)
        (Budget.andOr (x.exactBudget context) (y.exactBudget context) (z.exactBudget context)) answer
        taken := by
    intro u found
    rw [Condition.script_andOr]
    change within note.type.soundness.base _ _ _
    rw [← typed]
    exact covers.of_some found
  have decided (w : Typed κ Digest) (a b : Bool) (taken : List Bytes)
      (baseW : w.type.soundness.base = z.type.soundness.base)
      (branch : w.script context = if a = false then z.script context else y.script context)
      (run : AnswerRel.Both (x.Ran within e context) (w.Ran within e context) a b taken) :
      Covers (within z.type.soundness.base
          (Script.andOr (x.script context) (y.script context) (z.script context)) taken)
        (Usage.followedBy? ((x.exactBudget context).pick a) ((w.exactBudget context).pick b) 0) := by
    obtain ⟨upper, lower, rfl, ranX, ranW⟩ := run
    have kept := ranW.covers baseW
    rw [branch] at kept
    exact (ranX.covers baseX).followedBy kept fun _ _ =>
      composes.andOr stackLike (e.balanced_script context x) answersX ranX.fits.1
        (e.balanced_script context z) (Script.nested_script context z) (Script.nested_script context y)
  refine ⟨Satisfaction.gives_choose search.policy
    ((first.both second true true).mono fun taken runs _ => whole ?_)
    ((first.both third false true).mono fun taken runs _ => whole ?_),
    (first.both third false false).mono fun taken runs may => whole ?_⟩
  · exact (decided y true true taken equal rfl (runs.of_where (.inl rfl) (.inl rfl))).left
      fun _ other kept => (composes.worst other kept).1
  · exact (decided z false true taken rfl rfl (runs.of_where (.inr mayX) (.inl rfl))).right
      fun _ other kept => (composes.worst other kept).2
  · exact decided z false false taken rfl rfl (runs.of_where (.inr mayX) (may.imp_right mayZ))

/-- The runs of the children of a threshold, with what their budgets say. -/
private theorem exists_partRuns {items : List (Typed κ Digest)} {parts : List (Bool × List Bytes)}
    (runs : List.Forall₂ (fun (x : Typed κ Digest) part => x.Ran within e context part.1 part.2)
      items parts) :
    ∃ own : List PartRun, own.map (fun part => (part.answer, part.taken)) = parts ∧
      List.Forall₂ (fun (x : Typed κ Digest) part => x.Answers e false part.answer part.taken ∧
        (x.exactBudget context).pick part.answer = some part.usage ∧
        within x.type.soundness.base (x.script context) part.taken part.usage) items own := by
  induction runs with
  | nil => exact ⟨[], rfl, .nil⟩
  | @cons x part items parts head _ ih =>
    obtain ⟨own, rfl, below⟩ := ih
    obtain ⟨u, found, kept⟩ := head.known
    exact ⟨⟨part.1, part.2, u⟩ :: own, rfl, .cons ⟨head.fits.1, found, kept⟩ below⟩

private theorem keeps_thresh (composes : within.Composes e) {policy : Policy} {k : Nat}
    {items : List (Typed κ Digest)} {os : List Outcomes} (same : e.scheme = context.scheme)
    (valid : Validated context (.thresh note k items))
    (below : List.Forall₂ Outcomes.Gives os (items.map (Typed.Ran within e context))) :
    (Outcomes.thresh policy k os).Gives (Keeps within context (.thresh note k items)
      (Budget.threshold k (items.map (exactBudget context)))) := by
  obtain ⟨validBelow, positive, bounded, _⟩ := valid.thresh
  obtain ⟨first, rest, rfl⟩ := List.exists_cons_of_length_pos (Nat.lt_of_lt_of_le positive bounded)
  obtain ⟨base, bases, summands, typed⟩ := Soundness.threshold_eq_ok.mp valid.soundness_thresh
  obtain ⟨unit, units⟩ := List.forall_mem_cons.mp summands
  simp only [List.map_map, List.forall_mem_map, Function.comp_apply] at bases units
  obtain ⟨validFirst, validRest⟩ := List.forall_mem_cons.mp validBelow
  have head := validFirst.answersB same base
  rw [unit.1] at head
  have others : ∀ x ∈ rest, e.AnswersW (x.Answers e false) true (x.script context) := by
    intro x member
    have answers := (validRest x member).answersW same (bases x member)
    rwa [(units x member).1] at answers
  have run {marks : List Bool} (exact : marks.length = os.length) (answer : Bool)
      (count : if answer then marks.countP id = k else ∀ mark ∈ marks, mark = false) :
      (Outcomes.gather marks os).Gives (Keeps within context (.thresh note k (first :: rest))
        (Budget.threshold k ((first :: rest).map (exactBudget context))) answer) := by
    refine (Outcomes.gives_gather below exact).mono ?_
    rintro _ ⟨parts, runs, rfl, rfl⟩ u found
    rw [List.forall₂_map_left_iff] at runs
    obtain ⟨own, rfl, ownRuns⟩ := exists_partRuns runs
    have gathers : u.Gathers (own.map PartRun.usage) := by
      have budgets : List.Forall₂ (fun budget (part : Bool × Usage Nat) => budget.pick part.1 = some part.2)
          ((first :: rest).map (exactBudget context)) (own.map fun part => (part.answer, part.usage)) := by
        rw [List.forall₂_map_left_iff, List.forall₂_map_right_iff]
        exact ownRuns.imp fun x part run => run.2.1
      have gathers := Budget.gathers_threshold found budgets (by
        cases answer with
        | true => simpa [List.countP_map, Function.comp_def] using count
        | false => simpa using count)
      rwa [List.map_map] at gathers
    obtain _ | @⟨_, head', _, own, ⟨ranFirst, _, kept⟩, ownRuns⟩ := ownRuns
    have below' : List.Forall₂ (fun (x : Typed κ Digest) (part : PartRun) =>
        x.Answers e false part.answer part.taken ∧ within .W (x.script context) part.taken part.usage)
        rest own :=
      forall₂_imp_of_mem (fun x member part _ run => ⟨run.1, bases x member ▸ run.2.2⟩) ownRuns
    rw [base] at kept
    rw [Condition.script_thresh, List.flatMap_map]
    change within note.type.soundness.base _ _ _
    rw [← typed]
    exact composes.threshold head (e.balanced_script context first) others
      (fun x _ => e.balanced_script context x) ranFirst kept below' gathers
  constructor
  · intro stack found
    obtain ⟨marks, exact, count, gathered⟩ := Outcomes.threshold_eq_stack found
    exact run exact true count stack gathered
  · rw [Outcomes.thresh_dissat_witness]
    exact run List.length_replicate false fun mark => List.eq_of_mem_replicate

end Validated

/-- A part of a condition in which a search finds what its budget reckons with, where it matters. -/
structure Followed (within : RunBound) (context : Context) (search : Search κ)
    (matters : Typed κ Digest → Prop) (t : Typed κ Digest) : Prop where
  valid : Validated context t
  counts : t.CountsBelow (2 ^ 39)
  usable : ∀ {x : Typed κ Digest}, Validated context x → matters x → x.type.soundness.dissatisfiable = true
  descends : search.DescendsThrough matters t
  chooses : Measure.items.ChoosesWithin search t
  leaves : t.LeavesWithin within context

namespace Followed

variable {within : RunBound} {context : Context} {e : Evaluator} {allowed : LockKinds} {search : Search κ}
  {matters : Typed κ Digest → Prop} {t x : Typed κ Digest}

theorem child (followed : Followed within context search matters t) (member : x ∈ t.children) :
    Followed within context search matters x where
  valid := followed.valid.child member
  counts := ((Condition.all_iff t).mp followed.counts).2 x member
  usable := followed.usable
  descends := followed.descends.child member
  chooses := ((Condition.all_iff t).mp followed.chooses).2 x member
  leaves := ((Condition.all_iff t).mp followed.leaves).2 x member

private theorem keeps_of_rule {budget : Budget Nat} (exact : t.exactBudget context = budget.withoutMixedPaths)
    (keeps : (search.outcomes t).Gives (.Where (matters t) (Keeps within context t budget))) :
    (search.outcomes t).Gives (.Where (matters t) (Keeps within context t (t.exactBudget context))) := by
  rw [exact]
  exact ⟨keeps.sat.mono fun _ kept may => (kept may).withoutMixedPaths,
    keeps.dissat.mono fun _ kept may => (kept may).withoutMixedPaths⟩

variable [LawfulPublicKey κ]

/-- What is found is a run with a usage that the budget knows, if the bound holds for it. -/
private theorem ran (followed : Followed within context search matters t)
    (genuine : search.material.Genuine e search.leafHash) (same : e.scheme = context.scheme)
    (reckonable : search.Reckonable context .items allowed)
    (keeps : (search.outcomes t).Gives (.Where (matters t) (Keeps within context t (t.exactBudget context)))) :
    (search.outcomes t).Gives (.Where (matters t) (t.Ran within e context)) := by
  obtain ⟨valid, counts, usable, descends, chooses, _⟩ := followed
  have fits := valid.gives_where genuine (reckonable.scheme.trans same.symm) counts descends
  have reckons := valid.reckons reckonable chooses
  have both {answer : Bool} {taken : List Bytes} (fits : t.FitsWhere e (matters t) answer taken)
      (reckons : t.Reckons context .items allowed answer taken)
      (keeps : AnswerRel.Where (matters t) (Keeps within context t (t.exactBudget context)) answer taken) :
      AnswerRel.Where (matters t) (t.Ran within e context) answer taken := by
    intro may
    obtain ⟨u, found, _⟩ := (reckons (may.imp_right (usable valid))).within
    exact ⟨fits may, u, found, keeps may u found⟩
  exact ⟨fun stack found => both (fits.sat stack found) (reckons.sat stack found) (keeps.sat stack found),
    fun stack found => both (fits.dissat stack found) (reckons.dissat stack found) (keeps.dissat stack found)⟩

/-- The bound holds for the run on whatever is found, where it matters. -/
theorem keeps (composes : within.Composes e) (followed : Followed within context search matters t)
    (genuine : search.material.Genuine e search.leafHash) (same : e.scheme = context.scheme)
    (reckonable : search.Reckonable context .items allowed) :
    (search.outcomes t).Gives (.Where (matters t) (Keeps within context t (t.exactBudget context))) := by
  have root := followed.descends.root
  induction t using Typed.induct with
  | leaf note l =>
    have leaves := (Condition.all_leaf ..).mp followed.leaves
    have stackLike : note.type.soundness.base ≠ .W := by
      rw [← followed.valid.leaf.2]
      cases l <;> exact fun isW => by cases isW
    have kept (answer : Bool) (taken : List Bytes) :
        Keeps within context (.leaf note l) (Budget.ofLeaf context l) answer taken := by
      intro u found
      rw [Condition.script_leaf]
      exact leaves _ answer taken u stackLike found
    exact keeps_of_rule (exactBudget_leaf ..) ⟨fun stack _ _ => kept true stack.reverse,
      fun stack _ _ => kept false stack.reverse⟩
  | wrap note w x ih =>
    have below := followed.child (x := x) (by simp)
    refine keeps_of_rule (exactBudget_wrap ..) ?_
    rw [Search.outcomes_wrap]
    exact followed.valid.keeps_wrap composes root
      (below.ran genuine same reckonable (ih below below.descends.root))
  | pair note op x y ihX ihY =>
    have followedX := followed.child (x := x) (by simp)
    have followedY := followed.child (x := y) (by simp)
    have first := followedX.ran genuine same reckonable (ihX followedX followedX.descends.root)
    have second := followedY.ran genuine same reckonable (ihY followedY followedY.descends.root)
    refine keeps_of_rule (exactBudget_pair ..) ?_
    rw [Search.outcomes_pair]
    by_cases isOrI : op = .orI
    · subst isOrI
      exact followed.valid.keeps_orI composes root first second
    · refine followed.valid.keeps_pair composes same root first second (fun matter => ?_) isOrI
      obtain ⟨stack, found⟩ :=
        followedX.valid.exists_dissat search (followedX.usable followedX.valid matter)
      exact ⟨_, (first.dissat stack found (.inr matter)).fits.1⟩
  | andOr note x y z ihX ihY ihZ =>
    have followedX := followed.child (x := x) (by simp)
    have followedY := followed.child (x := y) (by simp)
    have followedZ := followed.child (x := z) (by simp)
    refine keeps_of_rule (exactBudget_andOr ..) ?_
    rw [Search.outcomes_andOr]
    exact followed.valid.keeps_andOr composes same root
      (followedX.ran genuine same reckonable (ihX followedX followedX.descends.root))
      (followedY.ran genuine same reckonable (ihY followedY followedY.descends.root))
      (followedZ.ran genuine same reckonable (ihZ followedZ followedZ.descends.root))
  | thresh note k items ih =>
    have below : List.Forall₂ Outcomes.Gives (items.map search.outcomes)
        (items.map (Typed.Ran within e context)) := by
      rw [List.forall₂_map_left_iff, List.forall₂_map_right_iff, List.forall₂_same]
      intro x member
      have followedX := followed.child (x := x) (by simpa using member)
      have ran := followedX.ran genuine same reckonable (ih x member followedX followedX.descends.root)
      exact ⟨ran.sat.mono fun _ run => run (.inl rfl),
        ran.dissat.mono fun _ run => run (.inr (root x member))⟩
    refine keeps_of_rule (exactBudget_thresh ..) ?_
    rw [Search.outcomes_thresh]
    have kept : (Outcomes.thresh search.policy k (items.map search.outcomes)).Gives _ :=
      followed.valid.keeps_thresh composes same below
    exact ⟨kept.sat.mono fun _ keeps _ => keeps, kept.dissat.mono fun _ keeps _ => keeps⟩

end Followed

end Typed

end LockScript
