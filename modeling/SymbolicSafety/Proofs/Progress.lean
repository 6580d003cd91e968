import SymbolicSafety.Proofs.Absorption
import SymbolicSafety.Proofs.Acceptance
import SymbolicSafety.Proofs.Growth
import SymbolicSafety.Proofs.Scopes
import SymbolicSafety.Proofs.Verdicts

namespace SymbolicSafety

/-! Checks end with a verdict. Everything that is asserted can be compiled, the
images that are computed can be folded, and they grow only finitely often. All
that may be missing is a version that a deeper unrolling needs, or a message
about a property that overflows. -/

namespace Solver

def Inherits (solver other : Solver) : Prop :=
  ∀ marker, other.owns marker = true → solver.owns marker = true

theorem Inherits.refl (solver : Solver) : solver.Inherits solver := fun _ owned => owned

theorem Inherits.trans {first second third : Solver} (later : third.Inherits second)
    (earlier : second.Inherits first) : third.Inherits first :=
  fun marker owned => later marker (earlier marker owned)

theorem Inherits.of_eq {solver other : Solver} (id : solver.id = other.id)
    (markers : solver.nextMarker = other.nextMarker) : solver.Inherits other := by
  intro marker owned
  simpa only [owns, id, markers] using owned

def OwnsBoth (solver : Solver) (pattern : Pattern) : Prop :=
  solver.owns pattern.first = true ∧ solver.owns pattern.second = true

theorem Inherits.ownsBoth {solver other : Solver} {pattern : Pattern}
    (inherits : solver.Inherits other) (owned : other.OwnsBoth pattern) :
    solver.OwnsBoth pattern :=
  ⟨inherits _ owned.1, inherits _ owned.2⟩

theorem inherits_closeScope (solver : Solver) : solver.closeScope.Inherits solver := by
  unfold closeScope
  split
  next popped closed =>
    unfold pop at closed
    split at closed
    · cases closed
    · split at closed <;> obtain rfl := Except.ok.inj closed <;> exact .of_eq rfl rfl
  next => exact .of_eq rfl rfl

theorem inherits_of_assert {solver added : Solver} {marker : Option Marker} {formula : Formula}
    (result : solver.assert marker formula = .ok added) : added.Inherits solver := by
  obtain ⟨-, rfl⟩ := assert_eq_ok_iff.mp result
  exact .of_eq rfl rfl

theorem inherits_of_interpolant {solver answered : Solver} {pattern : Pattern}
    {interpolant : Interpolant}
    (result : solver.interpolant pattern = .ok (interpolant, answered)) :
    answered.Inherits solver := by
  obtain ⟨-, -, -, -, -, -, -, id, markers⟩ := interpolant_eq_ok result
  exact .of_eq id markers

theorem inherits_createMarker (solver : Solver) : solver.createMarker.2.Inherits solver := by
  intro marker owned
  simp only [owns, Bool.and_eq_true, decide_eq_true_eq] at owned ⊢
  exact ⟨owned.1, Nat.lt_succ_of_lt owned.2⟩

theorem status_of_check {solver checked : Solver} {status : Status}
    (answered : solver.check = .ok (status, checked)) : checked.status = some status := by
  obtain ⟨problem, answer, -, -, -, rfl, last, -⟩ := check_eq_ok answered
  rw [Solver.status, last, Option.map_some]

theorem inherits_of_check {solver checked : Solver} {status : Status}
    (answered : solver.check = .ok (status, checked)) : checked.Inherits solver := by
  obtain ⟨-, -, -, -, -, -, -, -, -, -, id, markers⟩ := check_eq_ok answered
  exact .of_eq id markers

end Solver

namespace Run

variable {α β : Type} {permitted : CheckError → Prop} {before after : RunState}

def Ends (permitted : CheckError → Prop) (body : Run α) (before : RunState) : Prop :=
  (∃ result after, body.Returns before result after ∧ after.solver.Inherits before.solver) ∨
    ∃ error, permitted error ∧ (body.outcome before).1 = .error error

theorem Returns.ends {body : Run α} {result : α} (returned : body.Returns before result after)
    (inherits : after.solver.Inherits before.solver) : body.Ends permitted before :=
  .inl ⟨result, after, returned, inherits⟩

theorem Ends.bind {body : Run α} {next : α → Run β} (first : body.Ends permitted before)
    (second : ∀ result after, body.Returns before result after →
      after.solver.Inherits before.solver → (next result).Ends permitted after) :
    (body >>= next).Ends permitted before := by
  rcases first with ⟨value, middle, returned, inherits⟩ | ⟨error, may, failed⟩
  · have continues : (body >>= next).outcome before = (next value).outcome middle := by
      rw [outcome_bind, returned]
    rcases second value middle returned inherits with
      ⟨result, after, returned', inherits'⟩ | ⟨error, may, failed⟩
    · exact .inl ⟨result, after, continues.trans returned', inherits'.trans inherits⟩
    · exact .inr ⟨error, may, by rw [continues, failed]⟩
  · exact .inr ⟨error, may, outcome_bind_of_error failed next⟩

theorem ends_pure (value : α) : (pure value : Run α).Ends permitted before :=
  Returns.ends ((returns_pure_iff value value).mpr ⟨rfl, rfl⟩) (.refl _)

theorem ends_modify {change : RunState → RunState}
    (inherits : (change before).solver.Inherits before.solver) :
    (modify change : Run PUnit).Ends permitted before :=
  Returns.ends ((returns_modify_iff change ⟨⟩).mpr rfl) inherits

theorem ends_log (level : LogLevel) (message : String) :
    (log level message).Ends permitted before :=
  ends_modify (.of_eq rfl rfl)

theorem ends_get : (get : Run RunState).Ends permitted before :=
  Returns.ends ((returns_get_iff before).mpr ⟨rfl, rfl⟩) (.refl _)

theorem ends_solverStep {step : Solver → Except SolverError (α × Solver)} {result : α}
    {solver : Solver} (stepped : step before.solver = .ok (result, solver))
    (inherits : solver.Inherits before.solver) : (solverStep step).Ends permitted before :=
  Returns.ends ((returns_solverStep_iff step result).mpr ⟨solver, stepped, rfl⟩) inherits

theorem ends_assert {formula : Formula} (askable : formula.Askable) :
    (assert formula).Ends permitted before := by
  obtain ⟨added, asserted⟩ := Solver.exists_assert askable before.solver none
  have stepped : (do pure ((), ← before.solver.add formula)) = Except.ok ((), added) := by
    rw [Solver.add, asserted]
    rfl
  exact ends_solverStep stepped (Solver.inherits_of_assert asserted)

theorem ends_assertTo {marker : Marker} {formula : Formula}
    (owned : before.solver.owns marker = true) (askable : formula.Askable) :
    (assertTo marker formula).Ends permitted before := by
  obtain ⟨added, asserted⟩ := Solver.exists_assert askable before.solver (some marker)
  have stepped : (do pure ((), ← before.solver.addTo marker formula)) = Except.ok ((), added) := by
    rw [Solver.addTo_eq_ok_iff.mpr ⟨owned, asserted⟩]
    rfl
  exact ends_solverStep stepped (Solver.inherits_of_assert asserted)

theorem ends_unfold {indexing : Indexing} {formula unfolded : Formula}
    (unfoldedAt : formula.unfoldAt? indexing = some unfolded) :
    (unfold indexing formula).Ends permitted before :=
  Returns.ends ((returns_unfold_iff ..).mpr ⟨unfoldedAt, rfl⟩) (.refl _)

theorem ends_fold {indexing : Indexing} {formula folded : Formula}
    (foldedAt : formula.fold indexing = .ok folded) :
    (fold indexing formula).Ends permitted before :=
  Returns.ends ((returns_fold_iff ..).mpr ⟨foldedAt, rfl⟩) (.refl _)

theorem Ends.inScope {body : Run α}
    (ends : body.Ends permitted { before with solver := before.solver.push }) :
    (inScope body).Ends permitted before := by
  rcases ends with ⟨result, inner, returned, inherits⟩ | ⟨error, may, failed⟩
  · refine Returns.ends ((returns_inScope_iff ..).mpr ⟨inner, returned, rfl⟩) ?_
    have pushed : before.solver.push.Inherits before.solver := .of_eq rfl rfl
    exact (Solver.inherits_closeScope _).trans (inherits.trans pushed)
  · exact .inr ⟨error, may, failed⟩

end Run

/-! ## Questions that can be asked -/

namespace Checker

variable {State : Type} {checker : Checker State} {surroundings : Surroundings}
  {before : RunState} {pattern : Pattern} {trace : Trace} {formula start : Formula}
  {permitted : CheckError → Prop}

theorem ends_query (compilable : ∀ formula ∈ before.solver.formulas, formula.Compilable) :
    (checker.query surroundings).Ends permitted before := by
  obtain ⟨status, checked, answered⟩ :=
    Solver.exists_check fun formula member => (compilable formula member).bounded
  refine Run.ends_get.bind fun state asked got _ => ?_
  obtain ⟨rfl, rfl⟩ := (Run.returns_get_iff ..).mp got
  split
  next => exact Run.ends_pure _
  next =>
    refine (Run.ends_modify (.of_eq rfl rfl)).bind fun _ counted counts _ => ?_
    have same : counted.solver = before.solver := by
      rw [← (Run.returns_modify_iff ..).mp counts]
    rw [← same] at answered
    refine (Run.ends_solverStep answered (Solver.inherits_of_check answered)).bind
      fun status _ _ _ => ?_
    cases status <;> exact Run.ends_pure _

theorem ends_setDeadline (timely : checker.Timely surroundings) :
    (checker.setDeadline surroundings).Ends permitted before :=
  ((returns_setDeadline_iff ()).mpr ⟨timely, rfl⟩).ends (.refl _)

theorem ends_freshPattern (room : before.solver.HasMarkers 2) :
    freshPattern.Ends permitted before :=
  (returns_freshPattern_iff.mpr ⟨room, rfl, rfl⟩).ends
    ((Solver.inherits_createMarker _).trans (Solver.inherits_createMarker _))

section Formulas

variable (typed : checker.WellTyped)
include typed

theorem StateFormula.askable (about : checker.StateFormula formula) : formula.Askable where
  typed := about.typed
  primeFree := about.primeFree
  proper := about.speaks.proper typed

theorem askable_initial (free : checker.initial.PrimeFree) : checker.initial.Askable where
  typed := (Formula.inferSort_eq_ok_iff ..).mp typed.initialBoolean
  primeFree := free
  proper := (speaksOf_initial typed).proper typed

theorem askable_bad {indexing : Indexing}
    (unfolded : checker.badStates.unfoldAt? indexing = some formula) : formula.Askable where
  typed := (Formula.unfolds_of_unfoldPrimed? unfolded).hasSort
    ((Formula.inferSort_eq_ok_iff ..).mp typed.propertyBoolean).mkNot
  primeFree := (Formula.unfolds_of_unfoldPrimed? unfolded).primeFree
  proper symbol mentions := by
    obtain ⟨name, inProperty, rfl⟩ := (mentions_bad_iff typed unfolded _).mp mentions
    exact typed.proper _ ⟨_, by simp, name, inProperty, rfl⟩

variable (unrolls : checker.Unrolls trace)
include unrolls

theorem Unrolls.askable_step (member : formula ∈ trace.steps) : formula.Askable := by
  obtain ⟨place, found⟩ := List.mem_iff_getElem?.mp member
  obtain ⟨indexing, reaches, unfolded⟩ := unrolls.steps place formula found
  have unfolds := Formula.unfolds_of_unfoldPrimed? unfolded
  exact ⟨⟨unfolds.primeFree,
    (reaches.speaksOf_step typed.action.regular unfolded).proper typed⟩,
    unfolds.hasSort typed.action.regular.typed⟩

theorem Unrolls.askable_target (cumulative : Bool) : (trace.target cumulative).Askable := by
  have each : ∀ formula ∈ trace.bad, formula.Askable := fun formula member => by
    obtain ⟨place, found⟩ := List.mem_iff_getElem?.mp member
    obtain ⟨indexing, -, unfolded⟩ := unrolls.bad place formula found
    exact askable_bad typed unfolded
  unfold Trace.target
  split
  · exact .junction rfl each
  · have last : trace.bad.getLastD (.bool false) ∈ Formula.bool false :: trace.bad :=
      List.getLastD_mem_cons
    rcases List.mem_cons.mp last with none | member
    · rw [none]
      exact Formula.askable_bool false
    · exact each _ member

theorem Unrolls.askable_head (askable : start.Askable) :
    (checker.unrolling trace start).head.Askable := by
  refine .junction rfl (List.forall_mem_cons.mpr ⟨askable, fun formula member => ?_⟩)
  have first : formula ∈ trace.steps.head? := by simpa [unrolling] using member
  exact unrolls.askable_step typed (List.mem_of_mem_head? first)

theorem Unrolls.askable_tail (start : Formula) : (checker.unrolling trace start).tail.Askable := by
  refine .junction rfl (List.forall_mem_append.mpr ⟨fun formula member => ?_,
    List.forall_mem_singleton.mpr (unrolls.askable_target typed checker.cumulative)⟩)
  exact unrolls.askable_step typed (List.mem_of_mem_drop member)

theorem Unrolls.askable_groups (askable : start.Askable) :
    ((checker.unrolling trace start).groups checker.direction).1.Askable ∧
      ((checker.unrolling trace start).groups checker.direction).2.Askable := by
  have head := unrolls.askable_head typed askable
  have tail := unrolls.askable_tail typed start
  cases checker.direction with
  | forward => exact ⟨head, tail⟩
  | backward => exact ⟨tail, head⟩

end Formulas

/-! ## Searching -/

section Attempts

variable (typed : checker.WellTyped) (unrolls : checker.Unrolls trace) (askable : start.Askable)
include typed unrolls askable

theorem Poses.compilable {posed : Solver}
    (poses : checker.Poses pattern (checker.unrolling trace start) posed) :
    ∀ formula ∈ posed.formulas, formula.Compilable := by
  intro formula member
  rcases (poses.mem_formulas_iff formula).mp member with rfl | rfl
  · exact (unrolls.askable_head typed askable).toCompilable
  · exact (unrolls.askable_tail typed start).toCompilable

variable (speaks : checker.SpeaksOf 0 0 start) (positive : 0 < trace.steps.length)
include speaks positive

theorem ends_nextImage
    (poses : checker.Poses pattern (checker.unrolling trace start) before.solver)
    (refuted : before.solver.status = some .unsat)
    (owned : before.solver.OwnsBoth pattern) :
    (checker.nextImage pattern).Ends permitted before := by
  obtain ⟨reached, advanced⟩ := unrolls.advances (List.ne_nil_of_length_pos positive)
  have inside : before.solver.outsiders pattern = [] := by
    simp [Solver.outsiders, poses.assertions, Pattern.mentions]
  have compilable : ∀ formula ∈ before.solver.group pattern.first, formula.Compilable := by
    rw [poses.group_first, List.forall_mem_singleton]
    exact (unrolls.askable_groups typed askable).1.toCompilable
  refine Run.ends_get.bind fun state asked got _ => ?_
  obtain ⟨rfl, rfl⟩ := (Run.returns_get_iff ..).mp got
  rcases Solver.interpolant_cases owned refuted inside compilable with
    ⟨interpolant, answered, result⟩ | ⟨what, gaveUp⟩
  · obtain ⟨folded, image, foldedAt, unfoldedAt⟩ :=
      poses.exists_image typed unrolls speaks (.succ .zero advanced) result
    simp only [result, advanced]
    have set : (set { before with solver := answered } : Run PUnit).Ends permitted before :=
      Run.Returns.ends ((Run.returns_set_iff _ ⟨⟩).mpr rfl) (Solver.inherits_of_interpolant result)
    refine set.bind fun _ _ _ _ => (Run.ends_fold foldedAt).bind fun folded' _ returned _ => ?_
    obtain ⟨same, -⟩ := (Run.returns_fold_iff ..).mp returned
    obtain rfl := Except.ok.inj (foldedAt.symm.trans same)
    exact (Run.ends_unfold unfoldedAt).bind fun _ _ _ _ => Run.ends_pure _
  · simp only [gaveUp]
    exact (Run.ends_log ..).bind fun _ _ _ _ => Run.ends_pure _

variable (distinct : pattern.first ≠ pattern.second) (idle : before.solver.assertions = [])
  (owned : before.solver.OwnsBoth pattern)
include distinct idle owned

theorem ends_attempt {α : Type} {onReached : Run α}
    (shown : ∀ posed asked, checker.Poses pattern (checker.unrolling trace start) posed →
      posed.check = .ok (.sat, asked.solver) → onReached.Ends permitted asked) :
    (checker.attempt surroundings pattern (checker.unrolling trace start) onReached).Ends
      permitted before := by
  have askableGroups := unrolls.askable_groups typed askable
  rcases groups : (checker.unrolling trace start).groups checker.direction with ⟨first, second⟩
  simp only [groups] at askableGroups
  unfold attempt
  apply Run.Ends.inScope
  simp only [groups]
  refine Run.Ends.bind (Run.ends_assertTo owned.1 askableGroups.1)
    fun _ one assertedFirst inherits => ?_
  refine (Run.ends_assertTo (inherits _ owned.2) askableGroups.2).bind
    fun _ two assertedSecond inherits' => ?_
  obtain ⟨poses, -⟩ := poses_of_assertTo idle distinct groups assertedFirst assertedSecond
  refine (ends_query (poses.compilable typed unrolls askable)).bind
    fun finding asked queried inherits'' => ?_
  have answered := returns_query queried
  cases finding with
  | stopped reason => exact Run.ends_pure _
  | satisfiable => exact (shown two.solver asked poses answered).bind fun _ _ _ _ => Run.ends_pure _
  | unsatisfiable =>
      have ownedAsked : asked.solver.OwnsBoth pattern :=
        (inherits''.trans (inherits'.trans inherits)).ownsBoth owned
      refine (ends_nextImage typed unrolls askable speaks positive (poses.check answered)
        (Solver.status_of_check answered) ownedAsked).bind fun result _ _ _ => ?_
      cases result <;> exact Run.ends_pure _

end Attempts

/-! ## Growing images -/

/-- The state forces the formula to be true, even if a part of it overflows. -/
def SystemState.Forces (state : checker.SystemState) (formula : Formula) : Prop :=
  formula.Forced (fun symbol => state.value symbol.var) true

variable {image new : Formula} {state : checker.SystemState}

theorem StateFormula.forces (about : checker.StateFormula formula)
    (satisfies : state.Satisfies formula) : state.Forces formula :=
  .truth ((about.satisfies_iff fun _ _ => rfl).mp satisfies)

theorem SystemState.Resembles.forces_iff {other : checker.SystemState}
    (resembles : state.Resembles other) (speaks : checker.SpeaksOf 0 0 formula) :
    state.Forces formula ↔ other.Forces formula := by
  constructor
  · exact fun forced => forced.congr fun symbol mentions =>
      resembles symbol.var (speaks symbol mentions).1
  · exact fun forced => forced.congr fun symbol mentions =>
      (resembles symbol.var (speaks symbol mentions).1).symm

theorem askable_difference (image new : Formula) (askableImage : image.Askable)
    (askableNew : new.Askable) : (Formula.mkAnd [new, .mkNot image]).Askable :=
  .junction rfl (List.forall_mem_cons.mpr
    ⟨askableNew, List.forall_mem_singleton.mpr askableImage.mkNot⟩)

/-- New states that are found are outside of the image, also if the image cannot
be evaluated there. -/
theorem exists_outside_of_sat (typed : checker.WellTyped) (aboutNew : checker.StateFormula new)
    (speaks : checker.SpeaksOf 0 0 image) (askable : image.Askable) {posed checked : Solver}
    (formulas : posed.formulas = [.mkAnd [new, .mkNot image]]) (consistent : posed.Consistent)
    (sat : posed.check = .ok (.sat, checked)) :
    ∃ state : checker.SystemState, state.Satisfies new ∧ ¬ state.Forces image := by
  have askableBoth := askable_difference image new askable (aboutNew.askable typed)
  obtain ⟨model, -, unforced⟩ := Solver.exists_unforced_of_check consistent.assertable
    (formulas ▸ List.forall_mem_singleton.mpr askableBoth.proper) sat
  obtain ⟨-, notFalse⟩ := unforced _ (formulas ▸ List.mem_singleton_self _)
  have legal := legal_completed typed model
  refine ⟨legal.state, ?_, fun forced => notFalse ?_⟩
  · obtain ⟨holds, truth⟩ := aboutNew.decided model.completed (aboutNew.speaks.within legal)
    cases holds with
    | true => exact (aboutNew.satisfies_iff legal.describes).mpr truth
    | false => exact absurd (.mkAnd List.mem_cons_self (.truth truth)) notFalse
  · have inModel : image.Forced model.completed true := forced.congr fun symbol mentions =>
      (speaks.eq_value legal.describes mentions).symm
    exact .mkAnd (List.mem_cons_of_mem _ List.mem_cons_self) inModel.mkNot

theorem ends_addsStates (askableImage : image.Askable) (askableNew : new.Askable)
    (idle : before.solver.assertions = []) :
    (checker.addsStates surroundings image new).Ends permitted before := by
  have askable := askable_difference image new askableImage askableNew
  apply Run.Ends.inScope
  refine (Run.ends_assert askable).bind fun _ one asserted _ => ends_query ?_
  obtain ⟨-, assertions, -⟩ := Solver.assert_eq_ok (Run.returns_assert asserted)
  have formulas : one.solver.formulas = [.mkAnd [new, .mkNot image]] := by
    simp [Solver.formulas, assertions, Solver.push, idle]
  rw [formulas, List.forall_mem_singleton]
  exact askable.toCompilable

/-- The image does not grow for ever: each time fewer states remain. -/
theorem ends_refine (typed : checker.WellTyped) (unrolls : checker.Unrolls trace)
    (positive : 0 < trace.steps.length) (distinct : pattern.first ≠ pattern.second)
    {fuel disjuncts : Nat} {states : List checker.SystemState}
    (remain : checker.Remain states (·.Forces image)) (enough : states.length < fuel)
    (askable : image.Askable) (speaks : checker.SpeaksOf 0 0 image)
    (aboutNew : checker.StateFormula new) (idle : before.solver.assertions = [])
    (owned : before.solver.OwnsBoth pattern) :
    (checker.refine surroundings pattern trace fuel image disjuncts new).Ends permitted before := by
  induction fuel generalizing image disjuncts new before states with
  | zero => exact absurd enough (Nat.not_lt_zero _)
  | succ fuel induction =>
      have askableNew := aboutNew.askable typed
      refine (ends_addsStates askable askableNew idle).bind fun finding asked added inherits => ?_
      obtain ⟨posed, answered, formulas, consistent, answer, idleAfter⟩ :=
        returns_addsStates idle added
      cases finding with
      | unsatisfiable | stopped => exact Run.ends_pure _
      | satisfiable =>
          obtain ⟨state, inNew, outside⟩ :=
            exists_outside_of_sat typed aboutNew speaks askable formulas consistent answer
          have askableUnion : (Formula.mkOr [image, new]).Askable := .junction rfl
            (List.forall_mem_cons.mpr ⟨askable, List.forall_mem_singleton.mpr askableNew⟩)
          have speaksUnion : checker.SpeaksOf 0 0 (.mkOr [image, new]) := .junction
            (List.forall_mem_cons.mpr ⟨speaks, List.forall_mem_singleton.mpr aboutNew.speaks⟩)
          obtain ⟨fewer, less, remainFewer⟩ := remain.grow
            (fun _ forced => Formula.Forced.mkOr List.mem_cons_self forced)
            (fun _ _ resembles => resembles.forces_iff speaksUnion)
            (.mkOr (List.mem_cons_of_mem _ List.mem_cons_self) (aboutNew.forces inNew)) outside
          refine (Run.ends_modify (.of_eq rfl rfl)).bind fun _ counted counts inherits' => ?_
          refine (Run.ends_log ..).bind fun _ noted notes inherits'' => ?_
          have idleNoted : noted.solver.assertions = [] := by
            rw [← (Run.returns_log_iff ..).mp notes, ← (Run.returns_modify_iff ..).mp counts]
            exact idleAfter (by simp)
          have ownedNoted := (inherits''.trans (inherits'.trans inherits)).ownsBoth owned
          refine (ends_attempt typed unrolls askableNew aboutNew.speaks positive distinct idleNoted
            ownedNoted fun _ _ _ _ => Run.ends_log ..).bind fun outcome _ attempt keeps => ?_
          cases outcome with
          | reached | stopped => exact Run.ends_pure _
          | excluded next =>
              obtain ⟨idleNext, derives⟩ := attempt_derives idleNoted distinct attempt
              exact induction remainFewer (by omega) askableUnion speaksUnion
                (derives.stateFormula typed unrolls aboutNew.speaks) idleNext
                (keeps.ownsBoth ownedNoted)

/-! ## Searching at growing depths -/

variable (checker) in
/-- The versions exist that some number of steps needs. -/
def Fits (depth : Nat) : Prop :=
  ∀ var, (checker.base.get var).toNat + depth * (checker.action.delta.get var).toNat < UInt32.size

theorem Fits.mono {depth deeper : Nat} (fits : checker.Fits deeper) (le : depth ≤ deeper) :
    checker.Fits depth := by
  intro var
  have shorter := Nat.mul_le_mul_right (checker.action.delta.get var).toNat le
  have := fits var
  omega

theorem fits_of_entries {depth : Nat} (few : depth < UInt32.size)
    (starts : checker.base = .all 0)
    (once : (checker.action.delta.default ::
      checker.action.delta.entries.entries.map Prod.snd).all (· ≤ 1) = true) :
    checker.Fits depth := by
  intro var
  have member : checker.action.delta.get var ∈ checker.action.delta.default ::
      checker.action.delta.entries.entries.map Prod.snd := by
    rw [Indexing.get]
    cases found : checker.action.delta.entries.get? var with
    | none => exact List.mem_cons_self
    | some index =>
        have entered := (SortedMap.get?_eq_some_iff ..).mp found
        exact List.mem_cons_of_mem _ (List.mem_map_of_mem entered)
  have single : (checker.action.delta.get var).toNat ≤ 1 :=
    UInt32.le_iff_toNat_le.mp (of_decide_eq_true (List.all_eq_true.mp once _ member))
  have product := Nat.mul_le_mul_left depth single
  rw [starts, Indexing.get_all, UInt32.toNat_zero]
  omega

variable (checker) in
/-- Why a search down to some depth may fail. -/
def Excuses (depth : Nat) : CheckError → Prop
  | .versionOverflow => ¬ checker.Fits depth
  | .unprintable => checker.OverflowsUnprintably
  | .solver _ | .negativePrime _ | .stalled | .depthOverflow | .markerOverflow
  | .deadlineOverflow => False

theorem Excuses.cases {depth : Nat} {error : CheckError} (excused : checker.Excuses depth error) :
    error = .versionOverflow ∧ ¬ checker.Fits depth ∨
      error = .unprintable ∧ checker.OverflowsUnprintably := by
  cases error with
  | versionOverflow => exact .inl ⟨rfl, excused⟩
  | unprintable => exact .inr ⟨rfl, excused⟩
  | solver | negativePrime | stalled | depthOverflow | markerOverflow | deadlineOverflow =>
      exact absurd excused id

theorem Excuses.eq_versionOverflow {depth : Nat} {error : CheckError}
    (excused : checker.Excuses depth error) (wellFormed : checker.WellFormed) :
    error = .versionOverflow ∧ ¬ checker.Fits depth :=
  excused.cases.resolve_right fun overflows => not_overflowsUnprintably wellFormed overflows.2

section Depths

variable {depth : Nat} (typed : checker.WellTyped)
include typed

theorem ends_witness (ordinary : surroundings.model = Solver.model) {posed : Solver}
    {indexings : List Indexing}
    (assertable : ∀ formula ∈ posed.formulas, Solver.Assertable formula)
    (proper : ∀ formula ∈ posed.formulas, formula.Proper)
    (sat : posed.check = .ok (.sat, before.solver))
    (reaches : ∀ (place : Nat) (indexing : Indexing), indexings[place]? = some indexing →
      checker.Reaches place indexing) :
    (checker.witness surroundings indexings).Ends (checker.Excuses depth) before := by
  obtain ⟨model, found, each⟩ := Solver.exists_model_of_check assertable proper sat
  have bound (symbol : Symbol) (value : Value) (held : model.get? symbol = some value) :
      model.completed symbol = value := Solver.completed_of_model assertable sat found
    (fun formula member => (each formula member).1) held
  rw [← ordinary] at found
  rcases upToViolation_stateAt_cases (legal_completed typed model) bound typed reaches with
    ⟨states, shown⟩ | ⟨failed, overflows⟩
  · exact Run.Returns.ends ((returns_witness_iff found shown).mpr ⟨rfl, rfl⟩) (.refl _)
  · refine Run.ends_get.bind fun state asked got _ => ?_
    obtain ⟨rfl, rfl⟩ := (Run.returns_get_iff ..).mp got
    simp only [found, failed]
    exact .inr ⟨.unprintable, overflows, rfl⟩

theorem ends_extend (unrolls : checker.Unrolls trace) {bound : Nat}
    (within : trace.steps.length < bound) :
    (checker.extend trace).Ends (checker.Excuses bound) before := by
  unfold extend
  split
  next next advanced =>
    obtain ⟨step, unfoldedStep⟩ : ∃ step,
        checker.action.formula.unfoldAt? trace.reached = some step := by
      refine Formula.exists_unfoldPrimed? fun var below occurs => ?_
      have reaches := typed.action.regular.reaches var below occurs
      have number := Indexing.get_add advanced var
      have := (next.get var).toNat_lt
      simp only [UInt32.size]
      omega
    obtain ⟨bad, unfoldedBad⟩ := Formula.exists_unfoldAt? (plain_badStates typed).1 next
    exact (Run.ends_unfold unfoldedStep).bind fun _ _ _ _ =>
      (Run.ends_unfold unfoldedBad).bind fun _ _ _ _ => Run.ends_pure _
  next missing =>
    refine .inr ⟨.versionOverflow, fun fits => ?_, rfl⟩
    obtain ⟨next, advanced⟩ : ∃ next, trace.reached.add? checker.action.delta = some next := by
      refine Indexing.exists_add? fun var => ?_
      have number := unrolls.reaches var
      have deeper := fits.mono within var
      rw [Nat.succ_mul] at deeper
      omega
    exact missing next advanced

variable (free : checker.initial.PrimeFree) (ordinary : surroundings.model = Solver.model)
include free ordinary

theorem ends_searchAt (unrolls : checker.Unrolls trace) (positive : 0 < trace.steps.length)
    (distinct : pattern.first ≠ pattern.second) (idle : before.solver.assertions = [])
    (owned : before.solver.OwnsBoth pattern) :
    (checker.searchAt surroundings pattern trace).Ends (checker.Excuses depth) before := by
  have askable := askable_initial typed free
  have speaks := speaksOf_initial typed
  refine (ends_attempt typed unrolls askable speaks positive distinct idle owned
    fun posed asked poses sat => ?_).bind fun outcome attempted attempt inherits => ?_
  · exact ends_witness typed ordinary poses.consistent.assertable
      (poses.proper typed unrolls speaks) sat unrolls.indexings
  · cases outcome with
    | reached | stopped => exact Run.ends_pure _
    | excluded new =>
        obtain ⟨idleNext, derives⟩ := attempt_derives idle distinct attempt
        refine Run.ends_get.bind fun state asked got _ => ?_
        obtain ⟨rfl, rfl⟩ := (Run.returns_get_iff ..).mp got
        obtain ⟨states, less, all⟩ :=
          unrolls.exists_states typed positive attempted.solver
        exact ends_refine typed unrolls positive distinct (fun state _ => all state) less askable
          speaks (derives.stateFormula typed unrolls speaks) idleNext (inherits.ownsBoth owned)

theorem ends_deepen_succ (distinct : pattern.first ≠ pattern.second) {bound fuel : Nat}
    (within : trace.steps.length < bound) (unrolls : checker.Unrolls trace)
    (idle : before.solver.assertions = []) (owned : before.solver.OwnsBoth pattern)
    (deeper : ∀ next entered searched, checker.Unrolls next →
      next.steps.length = trace.steps.length + 1 → entered.solver.assertions = [] →
      (checker.searchAt surroundings pattern next).Returns entered none searched →
      searched.solver.assertions = [] → searched.solver.OwnsBoth pattern →
      (checker.deepen surroundings pattern fuel next).Ends (checker.Excuses bound) searched) :
    (checker.deepen surroundings pattern (fuel + 1) trace).Ends (checker.Excuses bound) before := by
  refine Run.Ends.bind (Run.ends_modify (.of_eq rfl rfl)) fun _ entered enters inherits => ?_
  refine (Run.ends_log ..).bind fun _ noted notes inherits' => ?_
  have idleNoted : noted.solver.assertions = [] := by
    rw [← (Run.returns_log_iff ..).mp notes, ← (Run.returns_modify_iff ..).mp enters]
    exact idle
  refine (ends_extend typed unrolls within).bind fun next extended extends' _ => ?_
  obtain ⟨unrollsNext, length, rfl⟩ := returns_extend unrolls extends'
  have ownedNoted := (inherits'.trans inherits).ownsBoth owned
  refine (ends_searchAt typed free ordinary unrollsNext (by omega) distinct idleNoted
    ownedNoted).bind fun result searched searches keeps => ?_
  cases result with
  | some verdict => exact Run.ends_pure _
  | none =>
      have restored := leaves_searchAt.of_returns searches
      exact deeper next noted searched unrollsNext length idleNoted searches
        (restored.assertions.trans idleNoted) (keeps.ownsBoth ownedNoted)

theorem ends_deepen (distinct : pattern.first ≠ pattern.second) {bound fuel : Nat}
    (bounded : checker.bound = some bound) (within : trace.steps.length + fuel = bound)
    (unrolls : checker.Unrolls trace) (idle : before.solver.assertions = [])
    (owned : before.solver.OwnsBoth pattern) :
    (checker.deepen surroundings pattern fuel trace).Ends (checker.Excuses bound) before := by
  induction fuel generalizing trace before with
  | zero =>
      simp only [deepen, bounded]
      exact Run.ends_pure _
  | succ fuel induction =>
      refine ends_deepen_succ typed free ordinary distinct (by omega) unrolls idle owned
        fun next entered searched unrollsNext length _ _ idleNext ownedNext => ?_
      exact induction (by omega) unrollsNext idleNext ownedNext

/-! ## Whole checks -/

theorem ends_searchInitial (idle : before.solver.assertions = []) :
    (checker.searchInitial surroundings).Ends (checker.Excuses depth) before := by
  have askable := askable_initial typed free
  obtain ⟨bad, unfolded⟩ := Formula.exists_unfoldAt? (plain_badStates typed).1 checker.base
  apply Run.Ends.inScope
  refine (Run.ends_assert askable).bind fun _ one assertedInitial _ => ?_
  have addedInitial := Run.returns_assert assertedInitial
  obtain ⟨-, assertions, -⟩ := Solver.assert_eq_ok addedInitial
  have formulas : one.solver.formulas = [checker.initial] := by
    simp [Solver.formulas, assertions, Solver.push, idle]
  have consistent := (Solver.consistent_push idle).assert addedInitial
  refine (ends_query (formulas ▸ List.forall_mem_singleton.mpr askable.toCompilable)).bind
    fun finding asked queried _ => ?_
  have answered := returns_query queried
  cases finding with
  | unsatisfiable | stopped => exact Run.ends_pure _
  | satisfiable =>
      refine (Run.ends_unfold unfolded).bind fun bad' _ returned _ => ?_
      obtain ⟨unfolded', rfl⟩ := (Run.returns_unfold_iff ..).mp returned
      obtain rfl := Option.some.inj (unfolded.symm.trans unfolded')
      have askableBad := askable_bad typed unfolded
      refine (Run.ends_assert askableBad).bind fun _ two assertedBad _ => ?_
      have addedBad := Run.returns_assert assertedBad
      obtain ⟨-, -, -, -, -, -, -, kept, -⟩ := Solver.check_eq_ok answered
      obtain ⟨-, assertionsBad, -⟩ := Solver.assert_eq_ok addedBad
      have formulasBad : two.solver.formulas = [checker.initial, bad] := by
        simp [Solver.formulas, assertionsBad, kept, assertions, Solver.push, idle]
      have compilable : ∀ formula ∈ two.solver.formulas, formula.Compilable := by
        rw [formulasBad, List.forall_mem_cons, List.forall_mem_singleton]
        exact ⟨askable.toCompilable, askableBad.toCompilable⟩
      refine (ends_query compilable).bind fun finding answer asks _ => ?_
      cases finding with
      | unsatisfiable | stopped => exact Run.ends_pure _
      | satisfiable =>
          have assertable := ((consistent.check answered).assert addedBad).assertable
          refine (ends_witness typed ordinary assertable
            (fun formula member => (compilable formula member).proper) (returns_query asks)
            fun place indexing found => ?_).bind fun _ _ _ _ => Run.ends_pure _
          obtain ⟨rfl, rfl⟩ : place = 0 ∧ indexing = checker.base := by
            cases place <;> simp_all
          exact .zero

variable {solver : Solver} (idle : solver.assertions = [])
  (starts : checker.CanStart surroundings solver)
include idle starts

theorem check_ends_of_deepen
    (deepens : ∀ (pattern : Pattern) (before : RunState), pattern.first ≠ pattern.second →
      before.solver.assertions = [] → before.solver.OwnsBoth pattern →
      (checker.deepen surroundings pattern (checker.bound.getD depthLimit)
        (.start checker.base)).Ends (checker.Excuses depth) before) :
    (∃ result, (checker.check surroundings solver).1 = .ok result) ∨
      ∃ error, checker.Excuses depth error ∧
        (checker.check surroundings solver).1 = .error error := by
  have ends : (checker.run surroundings).Ends (checker.Excuses depth) { solver } := by
    refine Run.Ends.bind ?_ fun verdict _ _ _ => Run.ends_get.bind fun _ _ _ _ =>
      (Run.ends_log ..).bind fun _ _ _ _ => Run.ends_pure _
    refine (ends_setDeadline starts.timely).bind fun _ set sets _ => ?_
    obtain ⟨-, rfl⟩ := (returns_setDeadline_iff ()).mp sets
    refine (ends_freshPattern starts.markers).bind fun pattern fresh made _ => ?_
    obtain ⟨distinct, owned, kept⟩ := returns_freshPattern made
    have idleFresh := kept.trans idle
    refine (ends_searchInitial typed free ordinary idleFresh).bind
      fun found searched searches inherits => ?_
    cases found with
    | some verdict => exact Run.ends_pure _
    | none =>
        have restored := leaves_searchInitial.of_returns searches
        exact deepens pattern searched distinct (restored.assertions.trans idleFresh)
          (inherits.ownsBoth owned)
  rcases ends with ⟨result, after, returned, -⟩ | failed
  · exact .inl ⟨result, congrArg Prod.fst returned⟩
  · exact .inr failed

/-- A check with a bound that can start ends with a verdict, unless it needs
versions that do not exist or a message that cannot be printed. -/
theorem check_ends_or_excused {bound : Nat} (bounded : checker.bound = some bound) :
    (∃ result, (checker.check surroundings solver).1 = .ok result) ∨
      ∃ error, checker.Excuses bound error ∧
        (checker.check surroundings solver).1 = .error error := by
  refine check_ends_of_deepen typed free ordinary idle starts
    fun pattern before distinct idleBefore owned => ?_
  refine ends_deepen typed free ordinary distinct bounded ?_ .start idleBefore owned
  rw [bounded]
  exact Nat.zero_add bound

end Depths

theorem check_ends (wellFormed : checker.WellFormed) (free : checker.initial.PrimeFree)
    (ordinary : surroundings.model = Solver.model) {bound : Nat}
    (bounded : checker.bound = some bound) {solver : Solver} (idle : solver.assertions = [])
    (starts : checker.CanStart surroundings solver) :
    (∃ result, (checker.check surroundings solver).1 = .ok result) ∨
      (¬ checker.Fits bound ∧
        (checker.check surroundings solver).1 = .error .versionOverflow) := by
  refine (check_ends_or_excused wellFormed.toWellTyped free ordinary idle starts
    bounded).imp_right ?_
  rintro ⟨error, excused, failed⟩
  obtain ⟨rfl, misfit⟩ := excused.eq_versionOverflow wellFormed
  exact ⟨misfit, failed⟩

end Checker

end SymbolicSafety
