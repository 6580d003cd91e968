import SymbolicSafety.Checker.Setup
import SymbolicSafety.Checker.Verdict
import SymbolicSafety.Solver.Basic

namespace SymbolicSafety

/-! Running a check against a solver: what a run keeps track of, how it stops,
and how it uses the solver. -/

inductive CheckError where
  | solver (error : SolverError)
  | negativePrime (fault : NegativePrime)
  | versionOverflow
  | unprintable
  | stalled
  | depthOverflow
  | markerOverflow
  | deadlineOverflow
  deriving DecidableEq, Repr

/-- What a run observes apart from its input: the clock when it starts, and then
the number of questions put to the solver so far stands for the time at which it
looks. -/
structure Surroundings where
  started : Duration := Duration.zero
  cancelled : Nat → Bool := fun _ => false
  elapsed : Nat → Duration := fun _ => Duration.zero
  model : Solver → Except SolverError Valuation := Solver.model

structure RunState where
  solver : Solver
  statistics : Statistics := {}

/-- A computation with the solver. Its effects remain also when it fails. -/
abbrev Run := ExceptT CheckError (StateM RunState)

inductive Finding where
  | satisfiable
  | unsatisfiable
  | stopped (reason : UnknownReason)
  deriving DecidableEq, Repr

namespace Run

/-- A computation in a scope of its own, which is closed also when it fails. -/
def inScope (body : Run α) : Run α := ExceptT.mk fun state =>
  let (result, inner) := body.run { state with solver := state.solver.push }
  (result, { inner with solver := inner.solver.closeScope })

def log (level : LogLevel) (message : String) : Run Unit :=
  modify fun state => { state with solver := state.solver.log level message }

def solverStep (step : Solver → Except SolverError (α × Solver)) : Run α := do
  let state ← get
  match step state.solver with
  | .ok (result, solver) =>
      set { state with solver }
      pure result
  | .error error => throw (.solver error)

def assert (formula : Formula) : Run Unit :=
  solverStep fun solver => do pure ((), ← solver.add formula)

def assertTo (marker : Marker) (formula : Formula) : Run Unit :=
  solverStep fun solver => do pure ((), ← solver.addTo marker formula)

def createMarker : Run Marker := do
  let state ← get
  match state.solver.createMarker? with
  | some (marker, solver) =>
      set { state with solver }
      pure marker
  | none => throw .markerOverflow

def unfold (indexing : Indexing) (formula : Formula) : Run Formula :=
  match formula.unfoldAt? indexing with
  | some formula => pure formula
  | none => throw .versionOverflow

def fold (indexing : Indexing) (formula : Formula) : Run Formula :=
  match formula.fold indexing with
  | .ok formula => pure formula
  | .error fault => throw (.negativePrime fault)

def countCheck : Run Unit :=
  modify fun state =>
    { state with statistics := { state.statistics with checks := state.statistics.checks + 1 } }

def countRefinement : Run Unit :=
  modify fun state =>
    { state with
      statistics := { state.statistics with refinements := state.statistics.refinements + 1 } }

def enterIteration (iteration : Nat) : Run Unit :=
  modify fun state =>
    { state with statistics := { state.statistics with iterations := iteration } }

end Run

namespace Checker

variable {State : Type}

def setDeadline (checker : Checker State) (surroundings : Surroundings) : Run Unit :=
  match checker.timeout with
  | some timeout =>
      match surroundings.started.after? timeout with
      | some _ => pure ()
      | none => throw .deadlineOverflow
  | none => pure ()

/-- Why the run should end before its next question. Cancellation is seen before
the timeout. -/
def interruption (checker : Checker State) (surroundings : Surroundings) (checks : Nat) :
    Option UnknownReason :=
  if surroundings.cancelled checks then
    some .cancelled
  else
    match checker.timeout with
    | some limit =>
        if limit.nanoseconds ≤ (surroundings.elapsed checks).nanoseconds then some .timeout
        else none
    | none => none

def query (checker : Checker State) (surroundings : Surroundings) : Run Finding := do
  match checker.interruption surroundings (← get).statistics.checks with
  | some reason => pure (.stopped reason)
  | none =>
      Run.countCheck
      match ← Run.solverStep Solver.check with
      | .sat => pure .satisfiable
      | .unsat => pure .unsatisfiable
      | .unknown => pure (.stopped .inconclusive)

/-! ## Counterexamples -/

/-- States up to the first that violates the property. A state that the
property cannot be evaluated in does not violate it. -/
def upToViolation (property : Formula) : List Valuation → Except CheckError (List Valuation)
  | [] => .ok []
  | state :: rest =>
      match property.evaluateBool state with
      | .ok false => .ok [state]
      | .ok true => do pure (state :: (← upToViolation property rest))
      | .error error =>
          match error.message? with
          | some _ => do pure (state :: (← upToViolation property rest))
          | none => .error .unprintable

def witness (checker : Checker State) (surroundings : Surroundings) (indexings : List Indexing) :
    Run (Counterexample State) := do
  let depth := indexings.length - 1
  match surroundings.model (← get).solver with
  | .error error =>
      Run.log .warn ("No model for the counterexample at depth " ++ depth.repr ++ ": "
        ++ error.message?.getD "")
      pure ⟨depth, [checker.reconstruct SortedMap.empty]⟩
  | .ok model =>
      let states ← upToViolation checker.property (indexings.map model.stateAt)
      pure ⟨states.length - 1, states.map checker.reconstruct⟩

end Checker

end SymbolicSafety
