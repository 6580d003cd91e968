import SymbolicSafety.Proofs.Unrollings

namespace SymbolicSafety

/-! What the answers of the solver say about the states of the system. When a
trace cannot lead from some states into bad ones, no path does, and the
interpolant behind the first step holds in all states that the step leads to. -/

namespace Checker

variable {State : Type} {checker : Checker State} {formula : Formula} {assignment : Assignment}
  {state : checker.SystemState}

/-! ## Formulas about states -/

variable (checker) in
structure StateFormula (formula : Formula) : Prop where
  typed : formula.HasSort .bool
  primeFree : formula.PrimeFree
  speaks : checker.SpeaksOf 0 0 formula
  decided : formula.Decided

theorem SpeaksOf.eq_base (speaks : checker.SpeaksOf 0 0 formula) {symbol : Symbol}
    (mentions : formula.Mentions symbol) :
    symbol = .version symbol.var (checker.base.get symbol.var) := by
  obtain ⟨-, index, same, lower, upper⟩ := speaks symbol mentions
  obtain rfl : index = checker.base.get symbol.var := UInt32.toNat_inj.mp (by omega)
  exact same

theorem SpeaksOf.eq_value (speaks : checker.SpeaksOf 0 0 formula)
    (describes : checker.Describes assignment state) {symbol : Symbol}
    (mentions : formula.Mentions symbol) : assignment symbol = state.value symbol.var := by
  rw [speaks.eq_base mentions]
  exact describes _ (speaks symbol mentions).1

theorem StateFormula.satisfies_iff (about : checker.StateFormula formula)
    (describes : checker.Describes assignment state) :
    state.Satisfies formula ↔ formula.Holds assignment := by
  refine SystemState.evaluate_reading_iff (fun symbol mentions => ?_) fun symbol mentions =>
    about.speaks.eq_value describes mentions
  rw [about.speaks.eq_base mentions]
  simp [SystemState.reads]

theorem SystemState.exists_describes (state : checker.SystemState) :
    ∃ assignment, checker.Legal assignment ∧ checker.Describes assignment state :=
  ⟨fun symbol => state.value symbol.var, fun symbol => state.inDomain symbol.var, fun _ _ => rfl⟩

private theorem SystemState.exists_joined (state : checker.SystemState)
    (within : assignment.Within formula) (holds : formula.Holds assignment) :
    ∃ joined : Assignment, checker.Legal joined ∧ formula.Holds joined ∧
      (∀ symbol, formula.Mentions symbol → joined symbol = assignment symbol) ∧
      ∀ symbol, ¬ formula.Mentions symbol → joined symbol = state.value symbol.var := by
  classical
  let joined : Assignment := fun symbol =>
    if formula.Mentions symbol then assignment symbol else state.value symbol.var
  have inside (symbol : Symbol) (mentions : formula.Mentions symbol) :
      joined symbol = assignment symbol := if_pos mentions
  have outside (symbol : Symbol) (silent : ¬ formula.Mentions symbol) :
      joined symbol = state.value symbol.var := if_neg silent
  refine ⟨joined, fun symbol concerned => ?_, (Formula.hasTruth_congr inside).mpr holds, inside,
    outside⟩
  by_cases mentions : formula.Mentions symbol
  · exact inside symbol mentions ▸ within symbol mentions
  · exact outside symbol mentions ▸ state.inDomain symbol.var concerned

theorem speaksOf_initial (typed : checker.WellTyped) : checker.SpeaksOf 0 0 checker.initial :=
  fun symbol mentions => ⟨⟨_, by simp, symbol, mentions, rfl⟩, _,
    typed.initialVersions symbol mentions, by simp, by simp⟩

theorem StateFormula.initial (wellFormed : checker.WellFormed)
    (free : checker.initial.PrimeFree) : checker.StateFormula checker.initial where
  typed := (Formula.inferSort_eq_ok_iff ..).mp wellFormed.initialBoolean
  primeFree := free
  speaks := speaksOf_initial wellFormed.toWellTyped
  decided := wellFormed.initialInRange.decided wellFormed.initialBoolean free

theorem StateFormula.mkOr {left right : Formula} (first : checker.StateFormula left)
    (second : checker.StateFormula right) : checker.StateFormula (.mkOr [left, right]) where
  typed := .junction rfl (List.forall_mem_cons.mpr
    ⟨first.typed, List.forall_mem_singleton.mpr second.typed⟩)
  primeFree := .junction (List.forall_mem_cons.mpr
    ⟨first.primeFree, List.forall_mem_singleton.mpr second.primeFree⟩)
  speaks := .junction (List.forall_mem_cons.mpr
    ⟨first.speaks, List.forall_mem_singleton.mpr second.speaks⟩)
  decided := .mkOr (List.forall_mem_cons.mpr
    ⟨first.decided, List.forall_mem_singleton.mpr second.decided⟩)

theorem StateFormula.satisfies_mkOr_iff {left right : Formula} (first : checker.StateFormula left)
    (second : checker.StateFormula right) :
    state.Satisfies (.mkOr [left, right]) ↔ state.Satisfies left ∨ state.Satisfies right := by
  obtain ⟨assignment, legal, describes⟩ := state.exists_describes
  rw [(first.mkOr second).satisfies_iff describes, first.satisfies_iff describes,
    second.satisfies_iff describes, Formula.holds_mkOr_iff]
  · simp
  · exact List.forall_mem_cons.mpr ⟨first.decided assignment (first.speaks.within legal),
      List.forall_mem_singleton.mpr (second.decided assignment (second.speaks.within legal))⟩

theorem StateFormula.difference {left right : Formula} (first : checker.StateFormula left)
    (second : checker.StateFormula right) :
    checker.StateFormula (.mkAnd [left, .mkNot right]) where
  typed := .junction rfl (List.forall_mem_cons.mpr
    ⟨first.typed, List.forall_mem_singleton.mpr second.typed.mkNot⟩)
  primeFree := .junction (List.forall_mem_cons.mpr
    ⟨first.primeFree, List.forall_mem_singleton.mpr second.primeFree.mkNot⟩)
  speaks := .junction (List.forall_mem_cons.mpr
    ⟨first.speaks, List.forall_mem_singleton.mpr second.speaks.mkNot⟩)
  decided := .mkAnd (List.forall_mem_cons.mpr
    ⟨first.decided, List.forall_mem_singleton.mpr second.decided.mkNot⟩)

theorem StateFormula.satisfies_difference_iff {left right : Formula}
    (first : checker.StateFormula left) (second : checker.StateFormula right) :
    state.Satisfies (.mkAnd [left, .mkNot right]) ↔
      state.Satisfies left ∧ ¬ state.Satisfies right := by
  obtain ⟨assignment, legal, describes⟩ := state.exists_describes
  have decided := second.decided assignment (second.speaks.within legal)
  rw [(first.difference second).satisfies_iff describes, first.satisfies_iff describes,
    second.satisfies_iff describes, Formula.holds_mkAnd_iff, List.forall_mem_cons,
    List.forall_mem_singleton, Formula.holds_mkNot_iff decided]

theorem StateFormula.not_satisfies_of_unsat (about : checker.StateFormula formula)
    {solver checked : Solver} (posed : solver.formulas = [formula])
    (assertable : ∀ formula ∈ solver.formulas, Solver.Assertable formula)
    (unsat : solver.check = .ok (.unsat, checked)) (state : checker.SystemState) :
    ¬ state.Satisfies formula := by
  intro satisfies
  obtain ⟨assignment, legal, describes⟩ := state.exists_describes
  have within : ∀ formula ∈ solver.formulas, assignment.Within formula := by
    rw [posed, List.forall_mem_singleton]
    exact about.speaks.within legal
  refine Solver.not_holds_of_check assertable unsat within ?_
  rw [posed, List.forall_mem_singleton]
  exact (about.satisfies_iff describes).mp satisfies

/-! ## Unrollings in two parts -/

section Parts

variable {trace : Trace} {start : Formula}

theorem holds_head_iff (trace : Trace) (start : Formula) :
    (checker.unrolling trace start).head.Holds assignment ↔
      start.Holds assignment ∧ ∀ formula ∈ trace.steps.head?, formula.Holds assignment := by
  simp [unrolling, Unrolling.head, Formula.holds_mkAnd_iff]

theorem holds_tail_iff (trace : Trace) (start : Formula) :
    (checker.unrolling trace start).tail.Holds assignment ↔
      (∀ formula ∈ trace.steps.drop 1, formula.Holds assignment) ∧
        (trace.target checker.cumulative).Holds assignment := by
  simp only [unrolling, Unrolling.tail, Formula.holds_mkAnd_iff, List.forall_mem_append,
    List.forall_mem_singleton]

theorem mentions_tail {symbol : Symbol}
    (possible : ∀ formula ∈ trace.steps.drop 1 ++ [trace.target checker.cumulative],
      ∃ assignment : Assignment, formula.Holds assignment)
    (member : formula ∈ trace.steps.drop 1 ++ [trace.target checker.cumulative])
    (mentions : formula.Mentions symbol) :
    (checker.unrolling trace start).tail.Mentions symbol := by
  have notFalse : .bool (!true) ∉ trace.steps.drop 1 ++ [trace.target checker.cumulative] := by
    intro constant
    obtain ⟨assignment, holds⟩ := possible _ constant
    exact absurd (holds.unique rfl) (by decide)
  exact (Formula.mentions_junction_iff notFalse symbol).mpr ⟨formula, member, mentions⟩

theorem Unrolls.speaksOf_head (unrolls : checker.Unrolls trace) (typed : checker.WellTyped)
    (speaks : checker.SpeaksOf 0 0 start) :
    checker.SpeaksOf 0 1 (checker.unrolling trace start).head := by
  refine .junction (List.forall_mem_cons.mpr
    ⟨speaks.mono (Nat.le_refl 0) (Nat.zero_le 1), fun formula member => ?_⟩)
  have found : trace.steps[0]? = some formula := by
    rw [← List.head?_eq_getElem?]
    simpa [unrolling] using member
  exact unrolls.speaksOf_step typed.action.regular found

theorem Unrolls.speaksOf_tail (unrolls : checker.Unrolls trace) (typed : checker.WellTyped)
    (start : Formula) :
    checker.SpeaksOf 1 trace.steps.length (checker.unrolling trace start).tail := by
  refine .junction (List.forall_mem_append.mpr ⟨fun formula member => ?_,
    List.forall_mem_singleton.mpr (unrolls.speaksOf_target typed checker.cumulative)⟩)
  obtain ⟨place, found⟩ := List.mem_iff_getElem?.mp member
  rw [unrolling, List.getElem?_drop] at found
  exact (unrolls.speaksOf_step typed.action.regular found).mono (Nat.le_add_right 1 place)
    (List.getElem?_eq_some_iff.mp found).1

theorem Unrolls.decided_head (unrolls : checker.Unrolls trace) (wellFormed : checker.WellFormed)
    {step : Formula} (unfolded : checker.action.formula.unfoldAt? checker.base = some step)
    (about : checker.StateFormula start) : (checker.unrolling trace start).head.Decided := by
  refine .mkAnd (List.forall_mem_cons.mpr ⟨about.decided, fun formula member => ?_⟩)
  have first : formula ∈ trace.steps.head? := by simpa [unrolling] using member
  exact unrolls.decided_step wellFormed unfolded (List.mem_of_mem_head? first)

theorem Unrolls.decided_tail (unrolls : checker.Unrolls trace) (wellFormed : checker.WellFormed)
    {step : Formula} (unfolded : checker.action.formula.unfoldAt? checker.base = some step)
    (start : Formula) : (checker.unrolling trace start).tail.Decided := by
  refine .mkAnd (List.forall_mem_append.mpr ⟨fun formula member => ?_,
    List.forall_mem_singleton.mpr (unrolls.decided_target wellFormed checker.cumulative)⟩)
  exact unrolls.decided_step wellFormed unfolded (List.mem_of_mem_drop member)

end Parts

variable (checker) in
/-- If all bad states on the way are looked for, none is met by the paths out of
the image that are one step shorter than the trace. -/
def Avoids (length : Nat) (image : Formula) : Prop :=
  checker.cumulative = true → ∀ path : Nat → checker.SystemState, (path 0).Satisfies image →
    checker.IsPath path (length - 1) → ∀ place ≤ length - 1, ¬ (path place).Violates

variable (checker) in
/-- No path of some length leads from the start into a bad state, and one step
leads into the image. -/
structure Excludes (length : Nat) (start image : Formula) : Prop where
  about : checker.StateFormula image
  avoids : checker.Avoids length image
  safe : ∀ path : Nat → checker.SystemState, (path 0).Satisfies start →
    checker.IsPath path length → ¬ (path length).Violates
  covers : ∀ before after : checker.SystemState, before.Satisfies start → before.Step after →
    after.Satisfies image

/-! ## Answers about unrollings -/

variable (checker) in
structure Poses (pattern : Pattern) (unrolling : Unrolling) (solver : Solver) : Prop where
  assertions : solver.assertions =
    [⟨some pattern.first, (unrolling.groups checker.direction).1⟩,
      ⟨some pattern.second, (unrolling.groups checker.direction).2⟩]
  distinct : pattern.first ≠ pattern.second
  consistent : solver.Consistent

section Answers

variable {pattern : Pattern} {solver checked : Solver} {trace : Trace} {start step : Formula}

theorem Poses.mem_formulas_iff {unrolling : Unrolling}
    (poses : checker.Poses pattern unrolling solver) (formula : Formula) :
    formula ∈ solver.formulas ↔ formula = unrolling.head ∨ formula = unrolling.tail := by
  cases direction : checker.direction <;>
    simp [Solver.formulas, poses.assertions, direction, Unrolling.groups, or_comm]

theorem Poses.group_first {unrolling : Unrolling} (poses : checker.Poses pattern unrolling solver) :
    solver.group pattern.first = [(unrolling.groups checker.direction).1] := by
  simp [Solver.group, poses.assertions, poses.distinct.symm]

theorem Poses.group_second {unrolling : Unrolling}
    (poses : checker.Poses pattern unrolling solver) :
    solver.group pattern.second = [(unrolling.groups checker.direction).2] := by
  simp [Solver.group, poses.assertions, poses.distinct]

theorem Poses.check {unrolling : Unrolling} (poses : checker.Poses pattern unrolling solver)
    {status : Status} (answered : solver.check = .ok (status, checked)) :
    checker.Poses pattern unrolling checked where
  assertions := by
    obtain ⟨-, -, -, -, -, -, -, assertions, -⟩ := Solver.check_eq_ok answered
    rw [assertions, poses.assertions]
  distinct := poses.distinct
  consistent := poses.consistent.check answered

section Located

variable {reached : Indexing} {interpolant : Interpolant} {answered : Solver}
  {folded image : Formula} (typed : checker.WellTyped) (unrolls : checker.Unrolls trace)
  (speaks : checker.SpeaksOf 0 0 start)
  (poses : checker.Poses pattern (checker.unrolling trace start) solver)
include typed unrolls speaks poses

theorem Poses.within (legal : checker.Legal assignment) :
    ∀ formula ∈ solver.formulas, assignment.Within formula := by
  intro formula member
  rcases (poses.mem_formulas_iff formula).mp member with rfl | rfl
  · exact (unrolls.speaksOf_head typed speaks).within legal
  · exact (unrolls.speaksOf_tail typed start).within legal

theorem Poses.proper : ∀ formula ∈ solver.formulas, formula.Proper := by
  intro formula member
  rcases (poses.mem_formulas_iff formula).mp member with rfl | rfl
  · exact (unrolls.speaksOf_head typed speaks).proper typed
  · exact (unrolls.speaksOf_tail typed start).proper typed

variable (reaches : checker.Reaches 1 reached)
include reaches

theorem Poses.eq_of_shares {symbol : Symbol} (shares : solver.Shares pattern symbol) :
    checker.Concerns symbol.var ∧ symbol = .version symbol.var (reached.get symbol.var) := by
  have both : (checker.unrolling trace start).head.Mentions symbol ∧
      (checker.unrolling trace start).tail.Mentions symbol := by
    simp only [Solver.Shares, poses.group_first, poses.group_second, List.mem_singleton,
      exists_eq_left] at shares
    cases direction : checker.direction with
    | forward => simpa [direction, Unrolling.groups] using shares
    | backward => simpa [direction, Unrolling.groups, and_comm] using shares
  obtain ⟨concerned, index, same, -, upper⟩ := unrolls.speaksOf_head typed speaks symbol both.1
  obtain ⟨-, index', same', lower, -⟩ := unrolls.speaksOf_tail typed start symbol both.2
  obtain ⟨-, rfl⟩ := Symbol.version.inj (same.symm.trans same')
  have number := reaches symbol.var
  obtain rfl : index = reached.get symbol.var := UInt32.toNat_inj.mp (by omega)
  exact ⟨concerned, same⟩

variable (result : solver.interpolant pattern = .ok (interpolant, answered))

omit typed unrolls speaks poses reaches in
include result in
private theorem primeFree_image : (checker.direction.image interpolant.formula).PrimeFree := by
  cases checker.direction with
  | forward => exact Solver.primeFree_interpolant result
  | backward => exact (Solver.primeFree_interpolant result).mkNot

include result

private theorem Poses.eq_reached (symbol : Symbol)
    (mentions : (checker.direction.image interpolant.formula).Mentions symbol) :
    checker.Concerns symbol.var ∧ symbol = .version symbol.var (reached.get symbol.var) := by
  have inInterpolant : interpolant.formula.Mentions symbol := by
    cases direction : checker.direction with
    | forward => simpa [direction, Direction.image] using mentions
    | backward => simpa [direction, Direction.image, Formula.mkNot_mentions_iff] using mentions
  exact poses.eq_of_shares typed unrolls speaks reaches
    (Solver.shares_of_interpolant poses.consistent result inInterpolant)

theorem Poses.exists_fold :
    ∃ folded, (checker.direction.image interpolant.formula).fold reached = .ok folded ∧
      folded.PrimeFree := by
  have versions := poses.eq_reached typed unrolls speaks reaches result
  obtain ⟨folded, foldedAt⟩ : ∃ folded,
      (checker.direction.image interpolant.formula).fold reached = .ok folded := by
    refine Formula.exists_fold fun var index mentions => ?_
    obtain ⟨-, same⟩ := Symbol.version.inj (versions _ mentions).2
    exact UInt32.le_of_eq same.symm
  refine ⟨folded, foldedAt, ?_⟩
  rw [Formula.eq_rename_of_fold (fun symbol mentions => (versions symbol mentions).2) foldedAt]
  exact (primeFree_image result).rename

theorem Poses.exists_image :
    ∃ folded image, (checker.direction.image interpolant.formula).fold reached = .ok folded ∧
      folded.unfoldAt? checker.base = some image := by
  obtain ⟨folded, foldedAt, free⟩ := poses.exists_fold typed unrolls speaks reaches result
  obtain ⟨image, unfoldedAt⟩ := Formula.exists_unfoldAt? free checker.base
  exact ⟨folded, image, foldedAt, unfoldedAt⟩

variable (foldedAt : (checker.direction.image interpolant.formula).fold reached = .ok folded)
  (unfoldedAt : folded.unfoldAt? checker.base = some image)
include foldedAt unfoldedAt

private theorem Poses.image_spec :
    (∀ symbol, (checker.direction.image interpolant.formula).Mentions symbol →
      checker.Concerns symbol.var ∧ symbol = .version symbol.var (reached.get symbol.var)) ∧
    image = (checker.direction.image interpolant.formula).rename fun symbol =>
      .version symbol.var (checker.base.get symbol.var) := by
  have versions := poses.eq_reached typed unrolls speaks reaches result
  exact ⟨versions, Formula.eq_rename_of_fold_unfold
    (fun symbol inImage => (versions symbol inImage).2) foldedAt unfoldedAt
    (primeFree_image result)⟩

theorem Poses.stateFormula_image : checker.StateFormula image := by
  obtain ⟨versions, renamed⟩ :=
    poses.image_spec typed unrolls speaks reaches result foldedAt unfoldedAt
  have decided := Solver.decided_interpolant poses.consistent (poses.proper typed unrolls speaks)
    result
  have boolean : (checker.direction.image interpolant.formula).HasSort .bool := by
    cases checker.direction with
    | forward => exact Solver.hasSort_interpolant result
    | backward => exact (Solver.hasSort_interpolant result).mkNot
  have unfolds := Formula.unfolds_of_unfoldPrimed? unfoldedAt
  refine ⟨unfolds.hasSort (Formula.hasSort_of_fold foldedAt boolean), unfolds.primeFree, ?_, ?_⟩
  · intro symbol mentions
    rw [renamed, Formula.mentions_rename_iff] at mentions
    obtain ⟨name, mentions, rfl⟩ := mentions
    exact ⟨(versions name mentions).1, _, rfl, by simp [Symbol.var], by simp [Symbol.var]⟩
  · rw [renamed]
    refine Formula.Decided.rename ?_ fun symbol => rfl
    cases checker.direction with
    | forward => exact decided
    | backward => exact decided.mkNot

end Located

variable (wellFormed : checker.WellFormed) (unrolls : checker.Unrolls trace)
  (unfolded : checker.action.formula.unfoldAt? checker.base = some step)
  (about : checker.StateFormula start)
  (poses : checker.Poses pattern (checker.unrolling trace start) solver)
include wellFormed unrolls unfolded

theorem holds_parts_iff (start : Formula) :
    (checker.unrolling trace start).head.Holds assignment ∧
        (checker.unrolling trace start).tail.Holds assignment ↔
      start.Holds assignment ∧
        (∀ place < trace.steps.length, step.Holds (checker.later assignment place)) ∧
        (trace.target checker.cumulative).Holds assignment := by
  have parts : (∀ formula ∈ trace.steps, formula.Holds assignment) ↔
      (∀ formula ∈ trace.steps.head?, formula.Holds assignment) ∧
        ∀ formula ∈ trace.steps.drop 1, formula.Holds assignment := by
    cases trace.steps <;> simp
  rw [← unrolls.holds_steps_iff wellFormed.action.regular unfolded, parts]
  simp only [holds_head_iff, holds_tail_iff, and_assoc]

omit wellFormed unrolls unfolded in
theorem Poses.holds_formulas_iff
    (poses : checker.Poses pattern (checker.unrolling trace start) solver) :
    (∀ formula ∈ solver.formulas, formula.Holds assignment) ↔
      (checker.unrolling trace start).head.Holds assignment ∧
        (checker.unrolling trace start).tail.Holds assignment := by
  simp only [poses.mem_formulas_iff, forall_eq_or_imp, forall_eq]

include about poses

theorem Poses.decided : ∀ formula ∈ solver.formulas, formula.Decided := by
  intro formula member
  rcases (poses.mem_formulas_iff formula).mp member with rfl | rfl
  · exact unrolls.decided_head wellFormed unfolded about
  · exact unrolls.decided_tail wellFormed unfolded start

theorem Poses.not_violates_of_unsat
    (advanced : ∃ reached, checker.base.add? checker.action.delta = some reached)
    (unsat : solver.check = .ok (.unsat, checked)) (positive : 0 < trace.steps.length)
    {path : Nat → checker.SystemState} (satisfies : (path 0).Satisfies start)
    (isPath : checker.IsPath path trace.steps.length) :
    ¬ (path trace.steps.length).Violates := by
  intro violates
  obtain ⟨reached, advanced⟩ := advanced
  obtain ⟨assignment, legal, describes, holds⟩ :=
    exists_assignment_of_path wellFormed advanced unfolded unrolls.fits isPath
  refine Solver.not_holds_of_check poses.consistent.assertable unsat
    (poses.within wellFormed.toWellTyped unrolls about.speaks legal) (poses.holds_formulas_iff.mpr
      ((holds_parts_iff wellFormed unrolls unfolded start).mpr ⟨?_, holds, ?_⟩))
  · have describesStart := describes 0 (Nat.zero_le _)
    rw [later_zero] at describesStart
    exact (about.satisfies_iff describesStart).mp satisfies
  · obtain ⟨formula, indexing, last, reaches, unfoldedBad⟩ := unrolls.exists_last positive
    exact unrolls.holds_target_of_last wellFormed legal checker.cumulative last
      ((reaches.holds_bad_iff wellFormed unfoldedBad (describes _ (Nat.le_refl _))).mpr violates)

/-! ## Images -/

variable {reached : Indexing} {interpolant : Interpolant} {answered : Solver}
  {folded image : Formula}
  (advanced : checker.base.add? checker.action.delta = some reached)
  (result : solver.interpolant pattern = .ok (interpolant, answered))
  (foldedAt : (checker.direction.image interpolant.formula).fold reached = .ok folded)
  (unfoldedAt : folded.unfoldAt? checker.base = some image)
include advanced result foldedAt unfoldedAt

omit foldedAt unfoldedAt in
private theorem Poses.holds_image (legal : checker.Legal assignment)
    (holds : (checker.unrolling trace start).head.Holds assignment) :
    (checker.direction.image interpolant.formula).Holds assignment := by
  have typed := wellFormed.toWellTyped
  have proper := poses.proper typed unrolls about.speaks
  have decided := poses.decided wellFormed unrolls unfolded about
  have within := (unrolls.speaksOf_head typed about.speaks).within legal
  have inDomain (symbol : Symbol) (shares : solver.Shares pattern symbol) :
      symbol.domain.contains (assignment symbol) = true :=
    legal symbol (poses.eq_of_shares typed unrolls about.speaks (.succ .zero advanced) shares).1
  cases direction : checker.direction with
  | forward =>
      have group : solver.group pattern.first = [(checker.unrolling trace start).head] := by
        rw [poses.group_first, direction, Unrolling.groups]
      refine (Solver.holds_interpolant_iff poses.consistent proper decided result
        inDomain).mpr ⟨assignment, fun _ _ => rfl, ?_⟩
      rw [group, List.forall_mem_singleton]
      exact ⟨within, holds⟩
  | backward =>
      -- The interpolant stems from the later part, so this part contradicts it.
      have group : solver.group pattern.second = [(checker.unrolling trace start).head] := by
        rw [poses.group_second, direction, Unrolling.groups]
      have excluded : ¬ interpolant.formula.Holds assignment :=
        Solver.not_holds_interpolant poses.consistent proper decided result
          (group ▸ List.forall_mem_singleton.mpr within)
          (group ▸ List.forall_mem_singleton.mpr holds)
      have truth := Solver.decided_interpolant poses.consistent proper result assignment
        fun symbol mentions =>
          inDomain symbol (Solver.shares_of_interpolant poses.consistent result mentions)
      exact (Formula.holds_mkNot_iff truth).mpr excluded

theorem Poses.satisfies_image {before after : checker.SystemState}
    (satisfies : before.Satisfies start) (steps : before.Step after) : after.Satisfies image := by
  have typed := wellFormed.toWellTyped
  have reaches : checker.Reaches 1 reached := .succ .zero advanced
  obtain ⟨versions, renamed⟩ :=
    poses.image_spec typed unrolls about.speaks reaches result foldedAt unfoldedAt
  have aboutImage := poses.stateFormula_image typed unrolls about.speaks reaches result foldedAt
    unfoldedAt
  obtain ⟨assignment, legal, describes, describesAfter, holds⟩ :=
    (step_iff wellFormed advanced unfolded).mp steps
  have holdsHead : (checker.unrolling trace start).head.Holds assignment := by
    refine (holds_head_iff trace start).mpr ⟨(about.satisfies_iff describes).mp satisfies, ?_⟩
    intro formula first
    obtain ⟨indexing, reaches, unfolded'⟩ :=
      unrolls.steps 0 formula (List.head?_eq_getElem? ▸ first)
    exact (reaches.hasTruth_step_iff wellFormed.action.regular unfolded unfolded').mpr
      ((later_zero assignment).symm ▸ holds)
  have holdsImage := poses.holds_image wellFormed unrolls unfolded about advanced result legal
    holdsHead
  rw [aboutImage.satisfies_iff describesAfter, renamed, Formula.Holds, Formula.hasTruth_rename_iff]
  refine (Formula.hasTruth_congr fun symbol mentions => ?_).mpr holdsImage
  rw [later, shift_base advanced, ← (versions symbol mentions).2]

omit foldedAt unfoldedAt in
private theorem Poses.not_holds_image (legal : checker.Legal assignment)
    (holds : (checker.unrolling trace start).tail.Holds assignment) :
    ¬ (checker.direction.image interpolant.formula).Holds assignment := by
  intro inImage
  have typed := wellFormed.toWellTyped
  have proper := poses.proper typed unrolls about.speaks
  have decided := poses.decided wellFormed unrolls unfolded about
  have within := (unrolls.speaksOf_tail typed start).within legal
  cases direction : checker.direction with
  | forward =>
      have group : solver.group pattern.second = [(checker.unrolling trace start).tail] := by
        rw [poses.group_second, direction, Unrolling.groups]
      rw [direction, Direction.image] at inImage
      exact Solver.not_holds_interpolant poses.consistent proper decided result
        (group ▸ List.forall_mem_singleton.mpr within)
        (group ▸ List.forall_mem_singleton.mpr holds) inImage
  | backward =>
      have group : solver.group pattern.first = [(checker.unrolling trace start).tail] := by
        rw [poses.group_first, direction, Unrolling.groups]
      have inInterpolant : interpolant.formula.Holds assignment := by
        refine (Solver.holds_interpolant_iff poses.consistent proper decided result
          fun symbol shares => ?_).mpr ⟨assignment, fun _ _ => rfl, ?_⟩
        · exact legal symbol
            (poses.eq_of_shares typed unrolls about.speaks (.succ .zero advanced) shares).1
        · rw [group, List.forall_mem_singleton]
          exact ⟨within, holds⟩
      rw [direction, Direction.image] at inImage
      exact absurd (inInterpolant.unique (Formula.hasTruth_mkNot_iff.mp inImage)) (by decide)

/-- A path out of the image that meets a bad state cannot be as long as the rest
of the trace. -/
theorem Poses.avoids_image (positive : 0 < trace.steps.length) :
    checker.Avoids trace.steps.length image := by
  intro cumulative path satisfies isPath place le violates
  have typed := wellFormed.toWellTyped
  have reaches : checker.Reaches 1 reached := .succ .zero advanced
  obtain ⟨versions, renamed⟩ :=
    poses.image_spec typed unrolls about.speaks reaches result foldedAt unfoldedAt
  have aboutImage := poses.stateFormula_image typed unrolls about.speaks reaches result foldedAt
    unfoldedAt
  have fits : ∀ var, (checker.base.get var).toNat +
      (trace.steps.length - 1) * (checker.action.delta.get var).toNat < UInt32.size := by
    intro var
    have shorter := Nat.mul_le_mul_right (checker.action.delta.get var).toNat
      (Nat.sub_le trace.steps.length 1)
    have := unrolls.fits var
    omega
  obtain ⟨assignment, legal, describes, holds⟩ :=
    exists_assignment_of_path wellFormed advanced unfolded fits isPath
  -- The path goes on where the first step of the trace ends.
  refine poses.not_holds_image wellFormed unrolls unfolded about advanced result legal.delayed
    ((holds_tail_iff trace start).mpr ⟨?_, ?_⟩) ?_
  · intro formula member
    obtain ⟨place, found⟩ := List.mem_iff_getElem?.mp member
    rw [List.getElem?_drop, Nat.add_comm] at found
    obtain ⟨indexing, reaches, unfolded'⟩ := unrolls.steps (place + 1) formula found
    have less := (List.getElem?_eq_some_iff.mp found).1
    rw [Formula.Holds, reaches.hasTruth_step_iff wellFormed.action.regular unfolded unfolded',
      later_delayed]
    exact holds place (by omega)
  · have less : place < trace.bad.length := by
      rw [unrolls.bad_length]
      omega
    have found : trace.bad[place]? = some trace.bad[place] := List.getElem?_eq_getElem less
    obtain ⟨indexing, reaches, unfoldedBad⟩ := unrolls.bad place _ found
    rw [cumulative]
    refine unrolls.holds_target_of_bad wellFormed legal.delayed (List.mem_of_getElem? found)
      ((reaches.holds_bad_iff wellFormed unfoldedBad ?_).mpr violates)
    rw [later_delayed]
    exact describes place le
  · have holdsImage := (aboutImage.satisfies_iff (describes 0 (Nat.zero_le _))).mp satisfies
    rw [renamed, Formula.Holds, Formula.hasTruth_rename_iff, ← later_delayed assignment 0]
      at holdsImage
    refine (Formula.hasTruth_congr fun symbol mentions => ?_).mp holdsImage
    rw [later, shift_base advanced, ← (versions symbol mentions).2]

/-- Forward, the image has no more states than it needs: each agrees with a state
that a step from the start leads to, as far as the rest of the trace is about it. -/
theorem Poses.exists_step_of_image (positive : 0 < trace.steps.length)
    (direction : checker.direction = .forward) (satisfies : state.Satisfies image) :
    ∃ before after : checker.SystemState, before.Satisfies start ∧ before.Step after ∧
      ∀ var, (checker.unrolling trace start).tail.Mentions (.version var (reached.get var)) →
        after.value var = state.value var := by
  have typed := wellFormed.toWellTyped
  have reaches : checker.Reaches 1 reached := .succ .zero advanced
  obtain ⟨-, renamed⟩ :=
    poses.image_spec typed unrolls about.speaks reaches result foldedAt unfoldedAt
  have aboutImage := poses.stateFormula_image typed unrolls about.speaks reaches result foldedAt
    unfoldedAt
  have holds : interpolant.formula.Holds fun symbol => state.value symbol.var := by
    have describes : checker.Describes (fun symbol => state.value symbol.var) state :=
      fun _ _ => rfl
    rw [aboutImage.satisfies_iff describes, renamed, Formula.Holds, Formula.hasTruth_rename_iff,
      direction] at satisfies
    exact satisfies
  have groups : solver.group pattern.first = [(checker.unrolling trace start).head] ∧
      solver.group pattern.second = [(checker.unrolling trace start).tail] := by
    rw [poses.group_first, poses.group_second, direction]
    exact ⟨rfl, rfl⟩
  obtain ⟨other, agrees, holdsHead⟩ := (Solver.holds_interpolant_iff poses.consistent
    (poses.proper typed unrolls about.speaks) (poses.decided wellFormed unrolls unfolded about)
    result fun symbol shares => state.inDomain symbol.var
      (poses.eq_of_shares typed unrolls about.speaks reaches shares).1).mp holds
  rw [groups.1, List.forall_mem_singleton] at holdsHead
  obtain ⟨joined, legal, joins, inside, outside⟩ := state.exists_joined holdsHead.1 holdsHead.2
  obtain ⟨holdsStart, holdsSteps⟩ := (holds_head_iff trace start).mp joins
  have first : trace.steps.head? = some step := by
    rw [List.head?_eq_getElem?, List.getElem?_eq_getElem positive, ← unfolded]
    exact (unrolls.opening _ (List.getElem?_eq_getElem positive)).symm
  refine ⟨legal.state, (legal.later 1).state, (about.satisfies_iff legal.describes).mpr holdsStart,
    (step_iff wellFormed advanced unfolded).mpr ⟨joined, legal, legal.describes,
      (legal.later 1).describes, holdsSteps step first⟩, fun var mentions => ?_⟩
  have reaches : (legal.later 1).state.value var = joined (.version var (reached.get var)) := by
    rw [← shift_base advanced]
    rfl
  rw [reaches]
  by_cases both : (checker.unrolling trace start).head.Mentions (.version var (reached.get var))
  · rw [inside _ both]
    refine agrees _ ?_
    simp only [Solver.Shares, groups, List.mem_singleton, exists_eq_left]
    exact ⟨both, mentions⟩
  · exact outside _ both

end Answers

/-! ## Images of traces -/

variable (checker) in
/-- The trace does not lead from the start into bad states, and the image is what
an interpolant says of the states after its first step. -/
def Derives (trace : Trace) (start image : Formula) : Prop :=
  ∃ pattern posed refuted answered interpolant reached folded,
    checker.Poses pattern (checker.unrolling trace start) posed ∧
    posed.check = .ok (.unsat, refuted) ∧
    refuted.interpolant pattern = .ok (interpolant, answered) ∧
    checker.base.add? checker.action.delta = some reached ∧
    (checker.direction.image interpolant.formula).fold reached = .ok folded ∧
    folded.unfoldAt? checker.base = some image

theorem Derives.stateFormula {trace : Trace} {start image : Formula} (typed : checker.WellTyped)
    (unrolls : checker.Unrolls trace) (speaks : checker.SpeaksOf 0 0 start)
    (derives : checker.Derives trace start image) : checker.StateFormula image := by
  obtain ⟨pattern, posed, refuted, answered, interpolant, reached, folded, poses, unsat, result,
    advanced, foldedAt, unfoldedAt⟩ := derives
  exact (poses.check unsat).stateFormula_image typed unrolls speaks (.succ .zero advanced) result
    foldedAt unfoldedAt

section Derives

variable {trace : Trace} {start image : Formula} (wellFormed : checker.WellFormed)
  (unrolls : checker.Unrolls trace) (positive : 0 < trace.steps.length)
  (about : checker.StateFormula start) (derives : checker.Derives trace start image)
include wellFormed unrolls positive about derives

theorem Derives.excludes : checker.Excludes trace.steps.length start image := by
  have aboutImage := derives.stateFormula wellFormed.toWellTyped unrolls about.speaks
  obtain ⟨pattern, posed, refuted, answered, interpolant, reached, folded, poses, unsat, result,
    advanced, foldedAt, unfoldedAt⟩ := derives
  have unfolded := unrolls.opening trace.steps[0] (by simp)
  have checked := poses.check unsat
  refine ⟨aboutImage, ?_, ?_, ?_⟩
  · exact checked.avoids_image wellFormed unrolls unfolded about advanced result foldedAt
      unfoldedAt positive
  · intro path satisfies isPath
    exact poses.not_violates_of_unsat wellFormed unrolls unfolded about ⟨reached, advanced⟩
      unsat positive satisfies isPath
  · intro before after satisfies steps
    exact checked.satisfies_image wellFormed unrolls unfolded about advanced result foldedAt
      unfoldedAt satisfies steps

theorem Derives.exists_step {reached : Indexing} (direction : checker.direction = .forward)
    (advanced : checker.base.add? checker.action.delta = some reached)
    (satisfies : state.Satisfies image) :
    ∃ before after : checker.SystemState, before.Satisfies start ∧ before.Step after ∧
      ∀ var, (checker.unrolling trace start).tail.Mentions (.version var (reached.get var)) →
        after.value var = state.value var := by
  obtain ⟨pattern, posed, refuted, answered, interpolant, reached', folded, poses, unsat, result,
    advanced', foldedAt, unfoldedAt⟩ := derives
  obtain rfl := Option.some.inj (advanced.symm.trans advanced')
  exact (poses.check unsat).exists_step_of_image wellFormed unrolls
    (unrolls.opening trace.steps[0] (by simp)) about advanced result foldedAt unfoldedAt positive
    direction satisfies

end Derives

/-! ## Starts of traces -/

section Starts

variable {trace : Trace} {start : Formula}

variable (checker) in
/-- What a trace is unrolled from: the initial condition at first, and then each
image that is derived from it. -/
inductive Starts (trace : Trace) : Formula → Prop where
  | initial : Starts trace checker.initial
  | image {start image : Formula} :
      Starts trace start → checker.Derives trace start image → Starts trace image

theorem Starts.speaksOf (starts : checker.Starts trace start) (typed : checker.WellTyped)
    (unrolls : checker.Unrolls trace) : checker.SpeaksOf 0 0 start := by
  induction starts with
  | initial => exact speaksOf_initial typed
  | image _ derives speaks => exact (derives.stateFormula typed unrolls speaks).speaks

theorem Starts.stateFormula (starts : checker.Starts trace start) (typed : checker.WellTyped)
    (unrolls : checker.Unrolls trace) (about : checker.StateFormula checker.initial) :
    checker.StateFormula start := by
  cases starts with
  | initial => exact about
  | image starts derives => exact derives.stateFormula typed unrolls (starts.speaksOf typed unrolls)

end Starts

end Checker

end SymbolicSafety
