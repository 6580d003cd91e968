import SymbolicSafety.Proofs.Images

namespace SymbolicSafety

/-! What a successful run does with the solver. Every question is put to the
solver in a scope of its own, so that between the questions nothing is
asserted. -/

namespace Solver

/-- The solver can make so many more markers. -/
def HasMarkers (solver : Solver) (count : Nat) : Prop := solver.nextMarker + count < UInt32.size

instance (solver : Solver) (count : Nat) : Decidable (solver.HasMarkers count) :=
  inferInstanceAs (Decidable (_ < _))

theorem createMarker?_eq (solver : Solver) :
    solver.createMarker? = if solver.HasMarkers 1 then some solver.createMarker else none := rfl

theorem hasMarkers_createMarker_iff (solver : Solver) (count : Nat) :
    solver.createMarker.2.HasMarkers count ↔ solver.HasMarkers (count + 1) := by
  simp only [HasMarkers, createMarker]
  omega

theorem HasMarkers.of_le {solver : Solver} {count fewer : Nat} (has : solver.HasMarkers count)
    (less : fewer ≤ count) : solver.HasMarkers fewer :=
  Nat.lt_of_le_of_lt (Nat.add_le_add_left less _) has

end Solver

namespace Run

variable {α β : Type} {before after : RunState}

/-- How the computation ends, and the state it leaves behind. -/
def outcome (body : Run α) (before : RunState) : Except CheckError α × RunState := body.run before

def Returns (body : Run α) (before : RunState) (result : α) (after : RunState) : Prop :=
  body.outcome before = (.ok result, after)

@[simp] theorem returns_pure_iff (value result : α) :
    (pure value : Run α).Returns before result after ↔ value = result ∧ before = after := by
  have ends : (pure value : Run α).outcome before = (.ok value, before) := rfl
  simp [Returns, ends]

@[simp] theorem returns_throw (error : CheckError) (result : α) :
    ¬ (throw error : Run α).Returns before result after := by
  have ends : (throw error : Run α).outcome before = (.error error, before) := rfl
  simp [Returns, ends]

@[simp] theorem returns_get_iff (result : RunState) :
    (get : Run RunState).Returns before result after ↔ before = result ∧ before = after := by
  have ends : (get : Run RunState).outcome before = (.ok before, before) := rfl
  simp [Returns, ends]

@[simp] theorem returns_set_iff (state : RunState) (done : PUnit) :
    (set state : Run PUnit).Returns before done after ↔ state = after := by
  have ends : (set state : Run PUnit).outcome before = (.ok ⟨⟩, state) := rfl
  simp [Returns, ends]

@[simp] theorem returns_modify_iff (change : RunState → RunState) (done : PUnit) :
    (modify change : Run PUnit).Returns before done after ↔ change before = after := by
  have ends : (modify change : Run PUnit).outcome before = (.ok ⟨⟩, change before) := rfl
  simp [Returns, ends]

theorem outcome_bind (body : Run α) (next : α → Run β) (before : RunState) :
    (body >>= next).outcome before =
      match body.outcome before with
      | (.ok value, middle) => (next value).outcome middle
      | (.error error, middle) => (.error error, middle) := by
  simp only [outcome, bind, ExceptT.bind, ExceptT.mk, ExceptT.run, StateT.bind]
  rcases (body before : Except CheckError α × RunState) with ⟨result, middle⟩
  cases result <;> rfl

theorem outcome_bind_of_error {body : Run α} {error : CheckError}
    (failed : (body.outcome before).1 = .error error) (next : α → Run β) :
    ((body >>= next).outcome before).1 = .error error := by
  rw [outcome_bind]
  rcases ended : body.outcome before with ⟨result, middle⟩
  obtain rfl : result = .error error := by rw [← failed, ended]
  rfl

@[simp] theorem returns_bind_iff (body : Run α) (next : α → Run β) (result : β) :
    (body >>= next).Returns before result after ↔
      ∃ value middle, body.Returns before value middle ∧
        (next value).Returns middle result after := by
  rw [Returns, outcome_bind]
  rcases ends : body.outcome before with ⟨result' | value, middle⟩ <;>
    simp [Returns, ends, and_assoc]

@[simp] theorem returns_lift_iff (ended : Except CheckError α) (result : α) :
    (liftM ended : Run α).Returns before result after ↔ ended = .ok result ∧ before = after := by
  have ends : (liftM ended : Run α).outcome before = (ended, before) := rfl
  simp [Returns, ends]

@[simp] theorem returns_inScope_iff (body : Run α) (result : α) :
    (inScope body).Returns before result after ↔
      ∃ inner, body.Returns { before with solver := before.solver.push } result inner ∧
        { inner with solver := inner.solver.closeScope } = after := by
  have ends : (inScope body).outcome before =
      match body.outcome { before with solver := before.solver.push } with
      | (result, inner) => (result, { inner with solver := inner.solver.closeScope }) := rfl
  rw [Returns, ends]
  rcases ended : body.outcome { before with solver := before.solver.push } with ⟨result', inner⟩
  simp [Returns, ended, and_assoc]

@[simp] theorem returns_log_iff (level : LogLevel) (message : String) (done : Unit) :
    (log level message).Returns before done after ↔
      { before with solver := before.solver.log level message } = after :=
  returns_modify_iff ..

theorem returns_solverStep_iff (step : Solver → Except SolverError (α × Solver)) (result : α) :
    (solverStep step).Returns before result after ↔
      ∃ solver, step before.solver = .ok (result, solver) ∧ { before with solver } = after := by
  simp only [solverStep, returns_bind_iff, returns_get_iff, and_assoc, exists_and_left,
    exists_eq_left']
  cases step before.solver with
  | error error => simp
  | ok answer =>
      simp only [returns_bind_iff, returns_set_iff, returns_pure_iff, Except.ok.injEq, Prod.ext_iff]
      constructor
      · rintro ⟨-, middle, rfl, rfl, rfl⟩
        exact ⟨answer.2, ⟨rfl, rfl⟩, rfl⟩
      · rintro ⟨solver, ⟨rfl, rfl⟩, rfl⟩
        exact ⟨⟨⟩, _, rfl, rfl, rfl⟩

theorem returns_assert {formula : Formula} {done : Unit}
    (returned : (assert formula).Returns before done after) :
    before.solver.assert none formula = .ok after.solver := by
  obtain ⟨solver, added, rfl⟩ := (returns_solverStep_iff ..).mp returned
  simpa [Solver.add] using added

theorem returns_assertTo {marker : Marker} {formula : Formula} {done : Unit}
    (returned : (assertTo marker formula).Returns before done after) :
    before.solver.assert (some marker) formula = .ok after.solver := by
  obtain ⟨solver, added, rfl⟩ := (returns_solverStep_iff ..).mp returned
  simp only [Outcome.bind_eq_ok_iff, Outcome.pure_eq_ok_iff, Prod.mk.injEq, true_and] at added
  obtain ⟨_, added, rfl⟩ := added
  exact (Solver.addTo_eq_ok_iff.mp added).2

theorem outcome_createMarker (before : RunState) :
    createMarker.outcome before =
      if before.solver.HasMarkers 1 then
        (.ok before.solver.createMarker.1, { before with solver := before.solver.createMarker.2 })
      else (.error .markerOverflow, before) := by
  have ends : (get : Run RunState).outcome before = (.ok before, before) := rfl
  rw [createMarker, outcome_bind, ends]
  by_cases room : before.solver.HasMarkers 1
  · simp only [Solver.createMarker?_eq, if_pos room]
    rfl
  · simp only [Solver.createMarker?_eq, if_neg room]
    rfl

theorem returns_createMarker_iff (marker : Marker) :
    createMarker.Returns before marker after ↔
      before.solver.HasMarkers 1 ∧ marker = before.solver.createMarker.1 ∧
        after = { before with solver := before.solver.createMarker.2 } := by
  rw [Returns, outcome_createMarker]
  split <;> simp [*, eq_comm]

theorem returns_unfold_iff (indexing : Indexing) (formula result : Formula) :
    (unfold indexing formula).Returns before result after ↔
      formula.unfoldAt? indexing = some result ∧ before = after := by
  rw [unfold]
  cases formula.unfoldAt? indexing <;> simp

theorem returns_fold_iff (indexing : Indexing) (formula result : Formula) :
    (fold indexing formula).Returns before result after ↔
      formula.fold indexing = .ok result ∧ before = after := by
  rw [fold]
  cases formula.fold indexing <;> simp

end Run

namespace Solver

theorem assert_eq_ok {solver added : Solver} {marker : Option Marker} {formula : Formula}
    (result : solver.assert marker formula = .ok added) :
    Assertable formula ∧ added.assertions = solver.assertions ++ [⟨marker, formula⟩] ∧
      added.scopes = solver.scopes := by
  obtain ⟨assertable, rfl⟩ := assert_eq_ok_iff.mp result
  exact ⟨assertable, rfl, rfl⟩

theorem consistent_push {solver : Solver} (idle : solver.assertions = []) :
    solver.push.Consistent :=
  ⟨by simp [formulas, push, idle], by simp [push]⟩

theorem scopes_push {solver : Solver} (idle : solver.assertions = []) :
    solver.push.scopes = solver.scopes ++ [0] := by
  simp [push, idle]

theorem assertions_closeScope {solver : Solver} {outer : List Nat}
    (scopes : solver.scopes = outer ++ [0]) : solver.closeScope.assertions = [] := by
  simp [closeScope, pop, depth, scopes]

end Solver

namespace Checker

variable {State : Type} {checker : Checker State} {surroundings : Surroundings}
  {before after : RunState}

/-! ## The start of a check -/

/-- The clock can show the time at which the check is to stop. -/
def Timely (checker : Checker State) (surroundings : Surroundings) : Prop :=
  ∀ timeout ∈ checker.timeout, (surroundings.started.after? timeout).isSome = true

instance (checker : Checker State) (surroundings : Surroundings) :
    Decidable (checker.Timely surroundings) :=
  inferInstanceAs (Decidable (∀ timeout ∈ checker.timeout, _))

/-- The check can set its deadline and make the two groups it asserts to. -/
structure CanStart (checker : Checker State) (surroundings : Surroundings) (solver : Solver) :
    Prop where
  timely : checker.Timely surroundings
  markers : solver.HasMarkers 2

theorem setDeadline_eq (checker : Checker State) (surroundings : Surroundings) :
    checker.setDeadline surroundings =
      if checker.Timely surroundings then pure () else throw .deadlineOverflow := by
  cases limit : checker.timeout with
  | none => simp [setDeadline, Timely, limit]
  | some timeout =>
      cases shown : surroundings.started.after? timeout <;>
        simp [setDeadline, Timely, limit, shown]

theorem returns_setDeadline_iff (done : Unit) :
    (checker.setDeadline surroundings).Returns before done after ↔
      checker.Timely surroundings ∧ before = after := by
  rw [setDeadline_eq]
  split <;> simp [*]

theorem returns_freshPattern_iff {pattern : Pattern} :
    freshPattern.Returns before pattern after ↔
      before.solver.HasMarkers 2 ∧
        pattern = ⟨before.solver.createMarker.1, before.solver.createMarker.2.createMarker.1⟩ ∧
        after = { before with solver := before.solver.createMarker.2.createMarker.2 } := by
  have paired : before.solver.createMarker.2.createMarker.2.createPattern
      before.solver.createMarker.1 before.solver.createMarker.2.createMarker.1 =
        .ok ⟨before.solver.createMarker.1, before.solver.createMarker.2.createMarker.1⟩ := by
    have older : before.solver.nextMarker < before.solver.nextMarker + 1 + 1 := by omega
    simp [Solver.createMarker, Solver.createPattern, Solver.demandMarker, Solver.owns, older]
  simp only [freshPattern, Run.returns_bind_iff, Run.returns_createMarker_iff,
    Run.returns_solverStep_iff]
  constructor
  · rintro ⟨_, _, ⟨-, rfl, rfl⟩, _, _, ⟨room, rfl, rfl⟩, solver, made, rfl⟩
    rw [paired] at made
    obtain ⟨rfl, rfl⟩ := Prod.mk.inj (Except.ok.inj made)
    exact ⟨(Solver.hasMarkers_createMarker_iff ..).mp room, rfl, rfl⟩
  · rintro ⟨room, rfl, rfl⟩
    refine ⟨_, _, ⟨room.of_le (by omega), rfl, rfl⟩, _, _,
      ⟨(Solver.hasMarkers_createMarker_iff ..).mpr room, rfl, rfl⟩, _, ?_, rfl⟩
    rw [paired]
    rfl

theorem outcome_freshPattern_of_full (full : ¬ before.solver.HasMarkers 2) :
    (freshPattern.outcome before).1 = .error .markerOverflow := by
  rw [← Solver.hasMarkers_createMarker_iff] at full
  rw [freshPattern, Run.outcome_bind, Run.outcome_createMarker]
  by_cases room : before.solver.HasMarkers 1
  · simp only [if_pos room, Run.outcome_bind, Run.outcome_createMarker, if_neg full]
  · simp only [if_neg room]

theorem check_of_not_timely (late : ¬ checker.Timely surroundings) (solver : Solver) :
    (checker.check surroundings solver).1 = .error .deadlineOverflow := by
  have failed : ((checker.setDeadline surroundings).outcome { solver }).1 =
      .error .deadlineOverflow := by
    rw [setDeadline_eq, if_neg late]
    rfl
  exact Run.outcome_bind_of_error (Run.outcome_bind_of_error failed _) _

theorem check_of_not_hasMarkers (timely : checker.Timely surroundings) {solver : Solver}
    (full : ¬ solver.HasMarkers 2) :
    (checker.check surroundings solver).1 = .error .markerOverflow := by
  refine Run.outcome_bind_of_error ?_ _
  have sets : (checker.setDeadline surroundings).Returns { solver } () { solver } :=
    (returns_setDeadline_iff ()).mpr ⟨timely, rfl⟩
  rw [verdict, Run.outcome_bind, sets]
  exact Run.outcome_bind_of_error (outcome_freshPattern_of_full full) _

/-! ## Questions -/

/-- The search ends before its bound. -/
def Interrupts (reason : UnknownReason) : Prop := ∀ bound, reason ≠ .boundReached bound

def Answered (solver : Solver) (answered : RunState) : Finding → Prop
  | .satisfiable => solver.check = .ok (.sat, answered.solver)
  | .unsatisfiable => solver.check = .ok (.unsat, answered.solver)
  | .stopped reason => Interrupts reason

theorem interrupts_of_interruption {checks : Nat} {reason : UnknownReason}
    (interrupted : checker.interruption surroundings checks = some reason) :
    Interrupts reason := by
  intro bound same
  subst same
  unfold interruption at interrupted
  split at interrupted
  · cases interrupted
  · split at interrupted
    · split at interrupted <;> cases interrupted
    · cases interrupted

theorem returns_query {finding : Finding}
    (returned : (checker.query surroundings).Returns before finding after) :
    Answered before.solver after finding := by
  simp only [query, Run.returns_bind_iff, Run.returns_get_iff, and_assoc, exists_and_left,
    exists_eq_left'] at returned
  split at returned
  next reason interrupted =>
    obtain ⟨rfl, -⟩ := (Run.returns_pure_iff ..).mp returned
    exact interrupts_of_interruption interrupted
  next =>
    simp only [Run.countCheck, Run.returns_bind_iff, Run.returns_modify_iff,
      Run.returns_solverStep_iff] at returned
    obtain ⟨-, counted, rfl, status, asked, ⟨solver, checked, rfl⟩, ended⟩ := returned
    cases status with
    | sat | unsat =>
        obtain ⟨rfl, rfl⟩ := (Run.returns_pure_iff ..).mp ended
        exact checked
    | unknown =>
        obtain ⟨rfl, -⟩ := (Run.returns_pure_iff ..).mp ended
        exact fun bound => by simp

theorem returns_nextImage_error {pattern : Pattern} {reason : UnknownReason}
    (returned : (checker.nextImage pattern).Returns before (.error reason) after) :
    Interrupts reason := by
  simp only [nextImage, Run.returns_bind_iff, Run.returns_get_iff, and_assoc, exists_and_left,
    exists_eq_left'] at returned
  split at returned
  next =>
    obtain ⟨_, _, -, ended⟩ := (Run.returns_bind_iff ..).mp returned
    obtain ⟨same, -⟩ := (Run.returns_pure_iff ..).mp ended
    obtain rfl := Except.error.inj same
    exact fun bound => by simp
  next => simp at returned
  next =>
    split at returned
    next =>
      simp only [Run.returns_bind_iff, Run.returns_pure_iff, reduceCtorEq, false_and, and_false,
        exists_false] at returned
    next => simp at returned

theorem returns_nextImage {pattern : Pattern} {image : Formula}
    (returned : (checker.nextImage pattern).Returns before (.ok image) after) :
    ∃ interpolant reached folded,
      before.solver.interpolant pattern = .ok (interpolant, after.solver) ∧
      checker.base.add? checker.action.delta = some reached ∧
      (checker.direction.image interpolant.formula).fold reached = .ok folded ∧
      folded.unfoldAt? checker.base = some image := by
  simp only [nextImage, Run.returns_bind_iff, Run.returns_get_iff, and_assoc, exists_and_left,
    exists_eq_left'] at returned
  split at returned
  next =>
    obtain ⟨_, _, -, ended⟩ := (Run.returns_bind_iff ..).mp returned
    simp at ended
  next => simp at returned
  next interpolant solver asked =>
    split at returned
    next reached advanced =>
      simp only [Run.returns_bind_iff, Run.returns_set_iff, Run.returns_fold_iff,
        Run.returns_unfold_iff, Run.returns_pure_iff, Except.ok.injEq] at returned
      obtain ⟨-, _, rfl, folded, _, ⟨foldedAt, rfl⟩, _, _, ⟨unfoldedAt, rfl⟩, rfl, rfl⟩ := returned
      exact ⟨interpolant, reached, folded, asked, advanced, foldedAt, unfoldedAt⟩
    next => simp at returned

/-- In a new scope the two parts of an unrolling are all that is asserted. -/
theorem poses_of_assertTo {pattern : Pattern} {unrolling : Unrolling} {first second : Formula}
    (idle : before.solver.assertions = []) (distinct : pattern.first ≠ pattern.second)
    (groups : unrolling.groups checker.direction = (first, second)) {one two : RunState}
    {done done' : Unit}
    (assertedFirst : (Run.assertTo pattern.first first).Returns
      { before with solver := before.solver.push } done one)
    (assertedSecond : (Run.assertTo pattern.second second).Returns one done' two) :
    checker.Poses pattern unrolling two.solver ∧
      two.solver.scopes = before.solver.scopes ++ [0] := by
  have addedFirst := Run.returns_assertTo assertedFirst
  have addedSecond := Run.returns_assertTo assertedSecond
  obtain ⟨-, oneAssertions, oneScopes⟩ := Solver.assert_eq_ok addedFirst
  obtain ⟨-, twoAssertions, twoScopes⟩ := Solver.assert_eq_ok addedSecond
  refine ⟨⟨?_, distinct, ((Solver.consistent_push idle).assert addedFirst).assert addedSecond⟩, ?_⟩
  · simp [twoAssertions, oneAssertions, groups, Solver.push, idle]
  · rw [twoScopes, oneScopes, Solver.scopes_push idle]

private def Concludes (checker : Checker State) (pattern : Pattern) (onReached : Run α)
    (asked : RunState) (outcome : Attempt α) (inner : RunState) : Finding → Prop
  | .satisfiable => ∃ found, onReached.Returns asked found inner ∧ outcome = .reached found
  | .stopped reason => outcome = .stopped reason
  | .unsatisfiable =>
      (∃ image, (checker.nextImage pattern).Returns asked (.ok image) inner ∧
        outcome = .excluded image) ∨ ∃ reason, outcome = .stopped reason ∧ Interrupts reason

/-- An attempt puts the two parts of the unrolling to the solver, when nothing
else is asserted. -/
private theorem returns_attempt {α : Type} {pattern : Pattern} {unrolling : Unrolling}
    {onReached : Run α} {outcome : Attempt α} (idle : before.solver.assertions = [])
    (distinct : pattern.first ≠ pattern.second)
    (returned : (checker.attempt surroundings pattern unrolling onReached).Returns
      before outcome after) :
    ∃ posed asked inner finding, checker.Poses pattern unrolling posed ∧
      posed.scopes = before.solver.scopes ++ [0] ∧ Answered posed asked finding ∧
      Concludes checker pattern onReached asked outcome inner finding ∧
      { inner with solver := inner.solver.closeScope } = after := by
  simp only [attempt, Run.returns_inScope_iff] at returned
  obtain ⟨inner, returned, closed⟩ := returned
  rcases groups : unrolling.groups checker.direction with ⟨first, second⟩
  simp only [groups, Run.returns_bind_iff] at returned
  obtain ⟨_, one, assertedFirst, _, two, assertedSecond, finding, asked, queried, ended⟩ := returned
  obtain ⟨poses, scopes⟩ := poses_of_assertTo idle distinct groups assertedFirst assertedSecond
  refine ⟨two.solver, asked, inner, finding, poses, scopes, returns_query queried, ?_, closed⟩
  cases finding with
  | satisfiable =>
      obtain ⟨found, middle, reached, done⟩ := (Run.returns_bind_iff ..).mp ended
      obtain ⟨rfl, rfl⟩ := (Run.returns_pure_iff ..).mp done
      exact ⟨found, reached, rfl⟩
  | stopped reason => exact ((Run.returns_pure_iff ..).mp ended).1.symm
  | unsatisfiable =>
      obtain ⟨result, middle, imaged, done⟩ := (Run.returns_bind_iff ..).mp ended
      cases result with
      | ok image =>
          obtain ⟨rfl, rfl⟩ := (Run.returns_pure_iff ..).mp done
          exact .inl ⟨image, imaged, rfl⟩
      | error reason =>
          exact .inr ⟨reason, ((Run.returns_pure_iff ..).mp done).1.symm,
            returns_nextImage_error imaged⟩

theorem Answered.scopes_eq {solver : Solver} {asked : RunState} {finding : Finding}
    (answered : Answered solver asked finding) (asks : ∀ reason, finding ≠ .stopped reason) :
    asked.solver.scopes = solver.scopes := by
  cases finding with
  | stopped reason => exact absurd rfl (asks reason)
  | satisfiable | unsatisfiable =>
      obtain ⟨-, -, -, -, -, -, -, -, scopes, -⟩ := Solver.check_eq_ok answered
      exact scopes

section Attempts

variable {α : Type} {pattern : Pattern} {trace : Trace} {start : Formula} {onReached : Run α}
  (idle : before.solver.assertions = []) (distinct : pattern.first ≠ pattern.second)
include idle distinct

theorem attempt_reached {found : α}
    (returned : (checker.attempt surroundings pattern (checker.unrolling trace start)
      onReached).Returns before (.reached found) after) :
    ∃ posed asked inner, checker.Poses pattern (checker.unrolling trace start) posed ∧
      posed.check = .ok (.sat, asked.solver) ∧ onReached.Returns asked found inner ∧
      (inner.solver.scopes = asked.solver.scopes → after.solver.assertions = []) := by
  obtain ⟨posed, asked, inner, finding, poses, scopes, answered, concludes, rfl⟩ :=
    returns_attempt idle distinct returned
  cases finding with
  | stopped => simp [Concludes] at concludes
  | unsatisfiable => simp [Concludes] at concludes
  | satisfiable =>
      obtain ⟨found', reached, same⟩ := concludes
      obtain rfl := Attempt.reached.inj same
      refine ⟨posed, asked, inner, poses, answered, reached, fun kept => ?_⟩
      exact Solver.assertions_closeScope
        (kept.trans ((answered.scopes_eq (by simp)).trans scopes))

theorem attempt_stopped {reason : UnknownReason}
    (returned : (checker.attempt surroundings pattern (checker.unrolling trace start)
      onReached).Returns before (.stopped reason) after) : Interrupts reason := by
  obtain ⟨posed, asked, inner, finding, -, -, answered, concludes, -⟩ :=
    returns_attempt idle distinct returned
  cases finding with
  | satisfiable => simp [Concludes] at concludes
  | stopped reason' =>
      obtain rfl := Attempt.stopped.inj concludes
      exact answered
  | unsatisfiable =>
      obtain ⟨_, -, excluded⟩ | ⟨reason', same, interrupts⟩ := concludes
      · cases excluded
      · obtain rfl := Attempt.stopped.inj same
        exact interrupts

/-- The image of an attempt that excludes bad states comes from an interpolant. -/
theorem attempt_derives {image : Formula}
    (returned : (checker.attempt surroundings pattern (checker.unrolling trace start)
      onReached).Returns before (.excluded image) after) :
    after.solver.assertions = [] ∧ checker.Derives trace start image := by
  obtain ⟨posed, asked, inner, finding, poses, scopes, answered, concludes, rfl⟩ :=
    returns_attempt idle distinct returned
  cases finding with
  | stopped => simp [Concludes] at concludes
  | satisfiable => simp [Concludes] at concludes
  | unsatisfiable =>
      obtain ⟨image', imaged, same⟩ | ⟨reason, stopped, -⟩ := concludes
      · obtain rfl := Attempt.excluded.inj same
        obtain ⟨interpolant, reached, folded, asks, advanced, foldedAt, unfoldedAt⟩ :=
          returns_nextImage imaged
        obtain ⟨-, -, -, -, kept, -⟩ := Solver.interpolant_eq_ok asks
        refine ⟨Solver.assertions_closeScope
          (kept.trans ((answered.scopes_eq (by simp)).trans scopes)), ?_⟩
        exact ⟨pattern, posed, asked.solver, inner.solver, interpolant, reached, folded, poses,
          answered, asks, advanced, foldedAt, unfoldedAt⟩
      · cases stopped

end Attempts

theorem returns_addsStates {image new : Formula} {finding : Finding}
    (idle : before.solver.assertions = [])
    (returned : (checker.addsStates surroundings image new).Returns before finding after) :
    ∃ posed asked, posed.formulas = [.mkAnd [new, .mkNot image]] ∧ posed.Consistent ∧
      Answered posed asked finding ∧
      ((∀ reason, finding ≠ .stopped reason) → after.solver.assertions = []) := by
  simp only [addsStates, Run.returns_inScope_iff, Run.returns_bind_iff] at returned
  obtain ⟨asked, ⟨_, one, asserted, queried⟩, rfl⟩ := returned
  have added := Run.returns_assert asserted
  obtain ⟨-, assertions, scopes⟩ := Solver.assert_eq_ok added
  have pushed := Solver.consistent_push idle
  have answered := returns_query queried
  refine ⟨one.solver, asked, ?_, pushed.assert added, answered, fun asks => ?_⟩
  · simp [Solver.formulas, assertions, Solver.push, idle]
  · exact Solver.assertions_closeScope
      ((answered.scopes_eq asks).trans (scopes.trans (Solver.scopes_push idle)))

end Checker

namespace Attempt

variable {α : Type}

def isExcluded : Attempt α → Bool
  | .excluded _ => true
  | .reached _ | .stopped _ => false

theorem exists_returns_of_isExcluded {body : Run (Attempt α)} {before : RunState}
    (excluded : (body.outcome before).1.toOption.any isExcluded = true) :
    ∃ image after, body.Returns before (.excluded image) after := by
  obtain ⟨outcome, computed, excluded⟩ := Outcome.any_toOption_iff.mp excluded
  cases outcome with
  | excluded image => exact ⟨image, _, Prod.ext computed rfl⟩
  | reached | stopped => cases excluded

end Attempt

end SymbolicSafety
