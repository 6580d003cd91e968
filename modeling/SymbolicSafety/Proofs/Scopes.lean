import SymbolicSafety.Proofs.CheckerRun

namespace SymbolicSafety

/-! A check leaves the solver as it found it. Whatever is asserted during a
check comes on top of what is there already, in a scope that is closed again on
every way out, with a verdict as with an error. -/

namespace Solver

/-- The same assertions, with the same markers, in the same scopes. -/
structure Agrees (solver other : Solver) : Prop where
  assertions : solver.assertions = other.assertions
  scopes : solver.scopes = other.scopes

structure Extends (solver other : Solver) : Prop where
  assertions : other.assertions <+: solver.assertions
  scopes : solver.scopes = other.scopes

variable {solver other : Solver}

theorem Agrees.refl (solver : Solver) : solver.Agrees solver := ⟨rfl, rfl⟩

theorem Agrees.extends (agrees : solver.Agrees other) : solver.Extends other :=
  ⟨agrees.assertions ▸ List.prefix_rfl, agrees.scopes⟩

instance : Trans Agrees Agrees Agrees where
  trans later earlier :=
    ⟨later.assertions.trans earlier.assertions, later.scopes.trans earlier.scopes⟩

instance : Trans Extends Extends Extends where
  trans later earlier :=
    ⟨earlier.assertions.trans later.assertions, later.scopes.trans earlier.scopes⟩

theorem Extends.agrees_closeScope (extended : solver.Extends other.push) :
    solver.closeScope.Agrees other := by
  have scopes : solver.scopes = other.scopes ++ [other.assertions.length] := extended.scopes
  obtain ⟨added, assertions⟩ := extended.assertions
  have inner : other.assertions ++ added = solver.assertions := assertions
  constructor <;> simp [closeScope, pop, depth, scopes, ← inner]

theorem extends_assert {marker : Option Marker} {formula : Formula}
    (result : other.assert marker formula = .ok solver) : solver.Extends other := by
  obtain ⟨-, assertions, scopes⟩ := assert_eq_ok result
  exact ⟨⟨_, assertions.symm⟩, scopes⟩

end Solver

namespace Run

variable {α β : Type} {relation weaker : Solver → Solver → Prop} {before : RunState}

/-- However the computation ends, this is how the solver is related to what it
was before. -/
def Leaves (relation : Solver → Solver → Prop) (body : Run α) (before : RunState) : Prop :=
  relation (body.outcome before).2.solver before.solver

theorem Leaves.mono {body : Run α} (leaves : body.Leaves relation before)
    (implies : ∀ {solver other}, relation solver other → weaker solver other) :
    body.Leaves weaker before :=
  implies leaves

theorem Leaves.of_returns {body : Run α} {result : α} {after : RunState}
    (leaves : body.Leaves relation before) (returned : body.Returns before result after) :
    relation after.solver before.solver := by
  rw [Leaves, returned] at leaves
  exact leaves

theorem Leaves.bind [Trans relation relation relation] {body : Run α} {next : α → Run β}
    (first : body.Leaves relation before)
    (second : ∀ value middle, body.Returns before value middle →
      (next value).Leaves relation middle) :
    (body >>= next).Leaves relation before := by
  rw [Leaves, outcome_bind]
  rcases ended : body.outcome before with ⟨error | value, middle⟩
  · rw [Leaves, ended] at first
    exact first
  · have continued := second value middle ended
    rw [Leaves, ended] at first
    exact Trans.trans continued first

theorem Leaves.inScope {body : Run α}
    (leaves : body.Leaves Solver.Extends { before with solver := before.solver.push }) :
    (inScope body).Leaves Solver.Agrees before :=
  leaves.agrees_closeScope

/-! ## Computations that assert nothing -/

theorem leaves_pure (value : α) : (pure value : Run α).Leaves Solver.Agrees before :=
  .refl before.solver

theorem leaves_throw (error : CheckError) : (throw error : Run α).Leaves Solver.Agrees before :=
  .refl before.solver

theorem leaves_lift (ended : Except CheckError α) :
    (liftM ended : Run α).Leaves Solver.Agrees before :=
  .refl before.solver

theorem leaves_get : (get : Run RunState).Leaves Solver.Agrees before :=
  .refl before.solver

theorem leaves_modify {change : RunState → RunState}
    (agrees : (change before).solver.Agrees before.solver) :
    (modify change : Run PUnit).Leaves Solver.Agrees before :=
  agrees

theorem leaves_log (level : LogLevel) (message : String) :
    (log level message).Leaves Solver.Agrees before :=
  leaves_modify ⟨rfl, rfl⟩

theorem leaves_unfold (indexing : Indexing) (formula : Formula) :
    (unfold indexing formula).Leaves Solver.Agrees before := by
  unfold unfold
  split
  · exact leaves_pure _
  · exact leaves_throw _

theorem leaves_fold (indexing : Indexing) (formula : Formula) :
    (fold indexing formula).Leaves Solver.Agrees before := by
  unfold fold
  split
  · exact leaves_pure _
  · exact leaves_throw _

/-! ## Steps of the solver -/

theorem leaves_createMarker : createMarker.Leaves Solver.Agrees before := by
  rw [Leaves, outcome_createMarker]
  split <;> exact ⟨rfl, rfl⟩

theorem leaves_solverStep {step : Solver → Except SolverError (α × Solver)}
    (refl : relation before.solver before.solver)
    (stepped : ∀ result solver, step before.solver = .ok (result, solver) →
      relation solver before.solver) :
    (solverStep step).Leaves relation before := by
  have got : (get : Run RunState).outcome before = (.ok before, before) := rfl
  simp only [Leaves, solverStep, outcome_bind, got]
  split
  next result solver succeeded => exact stepped result solver succeeded
  next => exact refl

theorem leaves_assert (formula : Formula) : (assert formula).Leaves Solver.Extends before := by
  refine leaves_solverStep (Solver.Agrees.refl _).extends fun result solver added => ?_
  simp only [Solver.add, Outcome.bind_eq_ok_iff, Outcome.pure_eq_ok_iff, Prod.mk.injEq] at added
  obtain ⟨_, asserted, -, rfl⟩ := added
  exact Solver.extends_assert asserted

theorem leaves_assertTo (marker : Marker) (formula : Formula) :
    (assertTo marker formula).Leaves Solver.Extends before := by
  refine leaves_solverStep (Solver.Agrees.refl _).extends fun result solver added => ?_
  simp only [Outcome.bind_eq_ok_iff, Outcome.pure_eq_ok_iff, Prod.mk.injEq] at added
  obtain ⟨_, added, -, rfl⟩ := added
  exact Solver.extends_assert (Solver.addTo_eq_ok_iff.mp added).2

end Run

/-! ## Parts of a check -/

namespace Checker

variable {State : Type} {checker : Checker State} {surroundings : Surroundings}
  {before : RunState} {pattern : Pattern} {trace : Trace}

theorem leaves_query : (checker.query surroundings).Leaves Solver.Agrees before := by
  refine Run.leaves_get.bind fun state middle _ => ?_
  split
  · exact Run.leaves_pure _
  · refine (Run.leaves_modify ⟨rfl, rfl⟩).bind fun _ _ _ => ?_
    refine (Run.leaves_solverStep (.refl _) fun status checked answered => ?_).bind
      fun status _ _ => ?_
    · obtain ⟨-, -, -, -, -, -, -, assertions, scopes, -⟩ := Solver.check_eq_ok answered
      exact ⟨assertions, scopes⟩
    · cases status <;> exact Run.leaves_pure _

theorem leaves_witness (indexings : List Indexing) :
    (checker.witness surroundings indexings).Leaves Solver.Agrees before := by
  refine Run.leaves_get.bind fun state middle _ => ?_
  split
  · exact (Run.leaves_log ..).bind fun _ _ _ => Run.leaves_pure _
  · exact (Run.leaves_lift _).bind fun _ _ _ => Run.leaves_pure _

theorem leaves_nextImage : (checker.nextImage pattern).Leaves Solver.Agrees before := by
  refine Run.leaves_get.bind fun state middle got => ?_
  obtain ⟨rfl, rfl⟩ := (Run.returns_get_iff ..).mp got
  split
  · exact (Run.leaves_log ..).bind fun _ _ _ => Run.leaves_pure _
  · exact Run.leaves_throw _
  next interpolant answered result =>
    obtain ⟨-, -, -, assertions, scopes, -⟩ := Solver.interpolant_eq_ok result
    have set : (set { before with solver := answered } : Run PUnit).Leaves Solver.Agrees before :=
      ⟨assertions, scopes⟩
    refine set.bind fun _ _ _ => ?_
    split
    · exact (Run.leaves_fold ..).bind fun _ _ _ =>
        (Run.leaves_unfold ..).bind fun _ _ _ => Run.leaves_pure _
    · exact Run.leaves_throw _

theorem leaves_attempt {α : Type} {unrolling : Unrolling} {onReached : Run α}
    (shown : ∀ asked, onReached.Leaves Solver.Agrees asked) :
    (checker.attempt surroundings pattern unrolling onReached).Leaves Solver.Agrees before := by
  refine Run.Leaves.inScope ?_
  refine (Run.leaves_assertTo ..).bind fun _ _ _ => (Run.leaves_assertTo ..).bind fun _ _ _ => ?_
  refine Run.Leaves.mono ?_ Solver.Agrees.extends
  refine leaves_query.bind fun finding asked _ => ?_
  cases finding with
  | satisfiable => exact (shown asked).bind fun _ _ _ => Run.leaves_pure _
  | stopped reason => exact Run.leaves_pure _
  | unsatisfiable =>
      refine leaves_nextImage.bind fun result _ _ => ?_
      cases result <;> exact Run.leaves_pure _

theorem leaves_addsStates (image new : Formula) :
    (checker.addsStates surroundings image new).Leaves Solver.Agrees before :=
  Run.Leaves.inScope ((Run.leaves_assert _).bind fun _ _ _ =>
    leaves_query.mono Solver.Agrees.extends)

theorem leaves_refine (fuel disjuncts : Nat) (image new : Formula) :
    (checker.refine surroundings pattern trace fuel image disjuncts new).Leaves
      Solver.Agrees before := by
  induction fuel generalizing image disjuncts new before with
  | zero => exact Run.leaves_throw _
  | succ fuel induction =>
      refine (leaves_addsStates image new).bind fun finding _ _ => ?_
      cases finding with
      | unsatisfiable | stopped => exact Run.leaves_pure _
      | satisfiable =>
          refine (Run.leaves_modify ⟨rfl, rfl⟩).bind fun _ _ _ => ?_
          refine (Run.leaves_log ..).bind fun _ _ _ => ?_
          refine (leaves_attempt fun _ => Run.leaves_log ..).bind fun outcome _ _ => ?_
          cases outcome with
          | reached | stopped => exact Run.leaves_pure _
          | excluded next => exact induction _ _ next

theorem leaves_searchAt :
    (checker.searchAt surroundings pattern trace).Leaves Solver.Agrees before := by
  refine (leaves_attempt fun _ => leaves_witness _).bind fun outcome _ _ => ?_
  cases outcome with
  | reached | stopped => exact Run.leaves_pure _
  | excluded new => exact Run.leaves_get.bind fun _ _ _ => leaves_refine ..

theorem leaves_extend : (checker.extend trace).Leaves Solver.Agrees before := by
  unfold extend
  split
  · exact (Run.leaves_unfold ..).bind fun _ _ _ =>
      (Run.leaves_unfold ..).bind fun _ _ _ => Run.leaves_pure _
  · exact Run.leaves_throw _

theorem leaves_deepen (fuel : Nat) :
    (checker.deepen surroundings pattern fuel trace).Leaves Solver.Agrees before := by
  induction fuel generalizing trace before with
  | zero =>
      unfold deepen
      split
      · exact Run.leaves_pure _
      · exact Run.leaves_throw _
  | succ fuel induction =>
      refine Run.Leaves.bind (Run.leaves_modify ⟨rfl, rfl⟩) fun _ _ _ => ?_
      refine (Run.leaves_log ..).bind fun _ _ _ => ?_
      refine leaves_extend.bind fun next _ _ => leaves_searchAt.bind fun result _ _ => ?_
      cases result with
      | some verdict => exact Run.leaves_pure _
      | none => exact induction

theorem leaves_searchInitial :
    (checker.searchInitial surroundings).Leaves Solver.Agrees before := by
  refine Run.Leaves.inScope ((Run.leaves_assert _).bind fun _ _ _ => ?_)
  refine (leaves_query.mono Solver.Agrees.extends).bind fun finding _ _ => ?_
  cases finding with
  | unsatisfiable | stopped => exact (Run.leaves_pure _).mono Solver.Agrees.extends
  | satisfiable =>
      refine ((Run.leaves_unfold ..).mono Solver.Agrees.extends).bind fun _ _ _ => ?_
      refine (Run.leaves_assert _).bind fun _ _ _ => Run.Leaves.mono ?_ Solver.Agrees.extends
      refine leaves_query.bind fun finding _ _ => ?_
      cases finding with
      | unsatisfiable | stopped => exact Run.leaves_pure _
      | satisfiable => exact (leaves_witness _).bind fun _ _ _ => Run.leaves_pure _

theorem leaves_setDeadline : (checker.setDeadline surroundings).Leaves Solver.Agrees before := by
  rw [setDeadline_eq]
  split
  · exact Run.leaves_pure _
  · exact Run.leaves_throw _

theorem leaves_freshPattern : freshPattern.Leaves Solver.Agrees before := by
  refine Run.leaves_createMarker.bind fun _ _ _ => Run.leaves_createMarker.bind fun _ _ _ => ?_
  refine Run.leaves_solverStep (.refl _) fun pattern solver made => ?_
  simp only [Outcome.bind_eq_ok_iff, Outcome.pure_eq_ok_iff, Prod.mk.injEq] at made
  obtain ⟨_, -, -, rfl⟩ := made
  exact .refl _

/-! ## Whole checks -/

/-- When a check is over, with whatever verdict or error, the solver has the
assertions and the open scopes that it had before. -/
theorem check_restores (checker : Checker State) (surroundings : Surroundings) (solver : Solver) :
    (checker.check surroundings solver).2.solver.assertions = solver.assertions ∧
      (checker.check surroundings solver).2.solver.scopes = solver.scopes := by
  have leaves : (checker.run surroundings).Leaves Solver.Agrees { solver } := by
    refine Run.Leaves.bind ?_ fun verdict _ _ => Run.leaves_get.bind fun _ _ _ =>
      (Run.leaves_log ..).bind fun _ _ _ => Run.leaves_pure _
    refine leaves_setDeadline.bind fun _ _ _ => leaves_freshPattern.bind fun pattern _ _ => ?_
    refine leaves_searchInitial.bind fun found _ _ => ?_
    cases found with
    | some verdict => exact Run.leaves_pure _
    | none => exact leaves_deepen _
  exact ⟨leaves.assertions, leaves.scopes⟩

end Checker

end SymbolicSafety
