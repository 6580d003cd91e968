import SymbolicSafety.Checker.Run

namespace SymbolicSafety

/-! Model checking with interpolants. For growing depths the system is unrolled
from the initial states into the bad ones. As long as that is impossible, an
interpolant behind the first step over-approximates the states it leads to, and
is added to the image. When an interpolant adds nothing new, the image is
inductive and the system is safe. -/

/-- The system unrolled for some steps: the formula of each step, the indexings
before and after it, and the bad states after it. -/
structure Trace where
  steps : List Formula
  passed : List Indexing
  reached : Indexing
  bad : List Formula

namespace Trace

def start (base : Indexing) : Trace := ⟨[], [], base, []⟩

def indexings (trace : Trace) : List Indexing := trace.passed ++ [trace.reached]

def target (trace : Trace) (cumulative : Bool) : Formula :=
  if cumulative then .mkOr trace.bad else trace.bad.getLastD (.bool false)

end Trace

inductive Attempt (α : Type) where
  | reached (found : α)
  | excluded (image : Formula)
  | stopped (reason : UnknownReason)

namespace Domain

/-- A number that is not below the number of values. -/
def span : Domain → Nat
  | .bool => 2
  | .int => 1
  | .range least greatest => (greatest.toInt - least.toInt).natAbs + 1

end Domain

namespace Checker

variable {State : Type}

def badStates (checker : Checker State) : Formula := .mkNot checker.property

def extend (checker : Checker State) (trace : Trace) : Run Trace := do
  let some next := trace.reached.add? checker.action.delta | throw .versionOverflow
  let step ← Run.unfold trace.reached checker.action.formula
  let bad ← Run.unfold next checker.badStates
  pure ⟨trace.steps ++ [step], trace.passed ++ [trace.reached], next, trace.bad ++ [bad]⟩

def unrolling (checker : Checker State) (trace : Trace) (start : Formula) : Unrolling :=
  ⟨start, trace.steps, trace.target checker.cumulative⟩

def nextImage (checker : Checker State) (pattern : Pattern) :
    Run (Except UnknownReason Formula) := do
  let state ← get
  match state.solver.interpolant pattern with
  | .error (.exhausted what) =>
      Run.log .warn ("Interpolation gave up: " ++ what.message)
      pure (.error .inconclusive)
  | .error error => throw (.solver error)
  | .ok (interpolant, solver) =>
      set { state with solver }
      let some after := checker.base.add? checker.action.delta | throw .versionOverflow
      let image ← Run.fold after (checker.direction.image interpolant.formula)
      pure (.ok (← Run.unfold checker.base image))

def attempt (checker : Checker State) (surroundings : Surroundings) (pattern : Pattern)
    (unrolling : Unrolling) (onReached : Run α) : Run (Attempt α) :=
  Run.inScope do
    let (first, second) := unrolling.groups checker.direction
    Run.assertTo pattern.first first
    Run.assertTo pattern.second second
    match ← checker.query surroundings with
    | .satisfiable => pure (.reached (← onReached))
    | .stopped reason => pure (.stopped reason)
    | .unsatisfiable =>
        match ← checker.nextImage pattern with
        | .ok image => pure (.excluded image)
        | .error reason => pure (.stopped reason)

def addsStates (checker : Checker State) (surroundings : Surroundings) (image new : Formula) :
    Run Finding :=
  Run.inScope do
    Run.assert (.mkAnd [new, .mkNot image])
    checker.query surroundings

/-- Let the image grow until it is inductive, or until it reaches a bad state
and has to be unrolled further. -/
def refine (checker : Checker State) (surroundings : Surroundings) (pattern : Pattern)
    (trace : Trace) : Nat → Formula → Nat → Formula → Run (Option (Verdict State))
  | 0, _, _, _ => throw .stalled
  | fuel + 1, image, disjuncts, new => do
      let depth := trace.steps.length
      match ← checker.addsStates surroundings image new with
      | .unsatisfiable => pure (some (.safe ⟨depth, disjuncts, image⟩))
      | .stopped reason => pure (some (.unknown reason))
      | .satisfiable =>
          Run.countRefinement
          Run.log .debug ("Image refined at bound " ++ depth.repr ++ ": "
            ++ (disjuncts + 1).repr ++ " disjunct(s)")
          let outcome ← checker.attempt surroundings pattern (checker.unrolling trace new)
            (Run.log .debug ("Refined image reaches a bad state at bound " ++ depth.repr
              ++ ", unrolling further"))
          match outcome with
          | .reached () => pure none
          | .stopped reason => pure (some (.unknown reason))
          | .excluded next =>
              checker.refine surroundings pattern trace fuel (.mkOr [image, new])
                (disjuncts + 1) next

/-- A bound for the number of times that the image can grow. Its symbols and
those of the trace have no more than this many combinations of values. -/
def refinementLimit (checker : Checker State) (solver : Solver) (trace : Trace) : Nat :=
  let formulas := checker.initial :: trace.target checker.cumulative :: trace.steps
    ++ solver.formulas
  let symbols := formulas.foldl (fun symbols formula =>
    SortedSet.addAll symbols formula.symbols.keys) SortedMap.empty
  let states := symbols.keys.foldl (fun product symbol => product * symbol.domain.span) 1
  states * states + 1

/-- Search at one depth. There is no verdict when the search has to go deeper. -/
def searchAt (checker : Checker State) (surroundings : Surroundings) (pattern : Pattern)
    (trace : Trace) : Run (Option (Verdict State)) := do
  let outcome ← checker.attempt surroundings pattern (checker.unrolling trace checker.initial)
    (checker.witness surroundings trace.indexings)
  match outcome with
  | .reached counterexample => pure (some (.violated counterexample))
  | .stopped reason => pure (some (.unknown reason))
  | .excluded new =>
      let limit := checker.refinementLimit (← get).solver trace
      checker.refine surroundings pattern trace limit checker.initial 1 new

def deepen (checker : Checker State) (surroundings : Surroundings) (pattern : Pattern) :
    Nat → Trace → Run (Verdict State)
  | 0, trace =>
      match checker.bound with
      | some _ => pure (.unknown (.boundReached trace.steps.length))
      | none => throw .depthOverflow
  | fuel + 1, trace => do
      let iteration := trace.steps.length + 1
      Run.enterIteration iteration
      Run.log .info ("IMC iteration " ++ iteration.repr ++ " (" ++ checker.direction.title ++ ")")
      let trace ← checker.extend trace
      match ← checker.searchAt surroundings pattern trace with
      | some verdict => pure verdict
      | none => checker.deepen surroundings pattern fuel trace

def searchInitial (checker : Checker State) (surroundings : Surroundings) :
    Run (Option (Verdict State)) :=
  Run.inScope do
    Run.assert checker.initial
    match ← checker.query surroundings with
    | .unsatisfiable => pure (some (.safe ⟨0, 0, .bool false⟩))
    | .stopped reason => pure (some (.unknown reason))
    | .satisfiable =>
        Run.assert (← Run.unfold checker.base checker.badStates)
        match ← checker.query surroundings with
        | .satisfiable =>
            pure (some (.violated (← checker.witness surroundings [checker.base])))
        | .stopped reason => pure (some (.unknown reason))
        | .unsatisfiable => pure none

def freshPattern : Run Pattern := do
  let first ← Run.createMarker
  let second ← Run.createMarker
  Run.solverStep fun solver => do pure (← solver.createPattern first second, solver)

def depthLimit : Nat := UInt64.size - 1

def verdict (checker : Checker State) (surroundings : Surroundings) : Run (Verdict State) := do
  checker.setDeadline surroundings
  let pattern ← freshPattern
  match ← checker.searchInitial surroundings with
  | some verdict => pure verdict
  | none =>
      checker.deepen surroundings pattern (checker.bound.getD depthLimit)
        (Trace.start checker.base)

def run (checker : Checker State) (surroundings : Surroundings) : Run (SafetyResult State) := do
  let verdict ← checker.verdict surroundings
  let statistics := (← get).statistics
  let result : SafetyResult State :=
    ⟨verdict, { statistics with elapsed := surroundings.elapsed statistics.checks }⟩
  Run.log .info ("IMC finished: " ++ result.text)
  pure result

/-- Check with a solver, which is returned with all scopes that were opened
closed again, together with the effort of the check. -/
def check (checker : Checker State) (surroundings : Surroundings) (solver : Solver) :
    Except CheckError (SafetyResult State) × RunState :=
  (checker.run surroundings).run { solver }

end Checker

end SymbolicSafety
