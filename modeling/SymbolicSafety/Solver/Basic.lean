import SymbolicSafety.Solver.Answer

namespace SymbolicSafety

/-! An interpolating solver for truth values and bounded integers. Assertions
are kept in scopes that can be closed again, and may belong to marked groups.
The answer of a check is remembered until the assertions change. -/

/-! ## Messages about the progress of a search -/

inductive LogLevel where
  | trace
  | debug
  | info
  | warn
  deriving DecidableEq, Repr

def LogLevel.text : LogLevel → String
  | .trace => "TRACE"
  | .debug => "DEBUG"
  | .info => "INFO"
  | .warn => "WARN"

structure LogEntry where
  level : LogLevel
  message : String
  deriving DecidableEq, Repr

def LogEntry.text (entry : LogEntry) : String := entry.level.text ++ " " ++ entry.message

abbrev Journal := Array LogEntry

/-! ## The state of a solver -/

structure Assertion where
  marker : Option Marker
  formula : Formula
  deriving DecidableEq, Repr

inductive LastCheck where
  | sat (model : Valuation)
  | unsat
  | unknown

def LastCheck.status : LastCheck → Status
  | .sat _ => .sat
  | .unsat => .unsat
  | .unknown => .unknown

structure SolverCounts where
  checks : Nat := 0
  interpolants : Nat := 0
  decisions : Nat := 0
  conflicts : Nat := 0
  deriving DecidableEq, Repr

namespace Limits

protected def default : Limits := ⟨1000000, 65536⟩

end Limits

/-- The state of a solver. For each open scope, outermost first, `scopes` holds
the number of assertions below it. -/
structure Solver where
  id : Nat
  limits : Limits
  assertions : List Assertion
  scopes : List Nat
  nextMarker : Nat
  last : Option LastCheck
  counts : SolverCounts
  journal : Journal

namespace Solver

def new (id : Nat) (limits : Limits) : Solver :=
  { id, limits, assertions := [], scopes := [], nextMarker := 0, last := none, counts := {},
    journal := #[] }

def depth (solver : Solver) : Nat := solver.scopes.length

def status (solver : Solver) : Option Status := solver.last.map LastCheck.status

def formulas (solver : Solver) : List Formula := solver.assertions.map Assertion.formula

def log (solver : Solver) (level : LogLevel) (message : String) : Solver :=
  { solver with journal := solver.journal.push ⟨level, message⟩ }

/-! ## Scopes -/

def push (solver : Solver) : Solver :=
  { solver with scopes := solver.scopes ++ [solver.assertions.length], last := none }

def pop (solver : Solver) (count : Nat) : Except SolverError Solver :=
  if solver.depth < count then
    .error (.popUnderflow count solver.depth)
  else if count = 0 then
    .ok solver
  else
    let outer := solver.depth - count
    .ok { solver with
      scopes := solver.scopes.take outer
      assertions := solver.assertions.take (solver.scopes.getD outer 0)
      last := none }

def reset (solver : Solver) : Solver :=
  { solver with assertions := [], scopes := [], last := none }

def closeScope (solver : Solver) : Solver :=
  match solver.pop 1 with
  | .ok solver => solver
  | .error error =>
      solver.log .warn ("WithPushPop could not close its scope: " ++ error.message?.getD "")

/-! ## Markers -/

def createMarker (solver : Solver) : Marker × Solver :=
  (⟨solver.id, solver.nextMarker⟩, { solver with nextMarker := solver.nextMarker + 1 })

def createMarker? (solver : Solver) : Option (Marker × Solver) :=
  if solver.nextMarker + 1 < UInt32.size then some solver.createMarker else none

def owns (solver : Solver) (marker : Marker) : Bool :=
  marker.solver = solver.id && marker.id < solver.nextMarker

def demandMarker (solver : Solver) (marker : Marker) : Except SolverError Unit :=
  if solver.owns marker then .ok () else .error (.unknownMarker marker)

def createPattern (solver : Solver) (first second : Marker) : Except SolverError Pattern := do
  solver.demandMarker first
  solver.demandMarker second
  pure ⟨first, second⟩

/-! ## Assertions -/

/-- Only Boolean formulas without primes, over finite domains, can be
asserted. -/
def demandAssertable (formula : Formula) : Except SolverError Unit := do
  let sort ← formula.inferSort.mapError .illSorted
  if sort ≠ .bool then
    throw (.notBoolean formula sort)
  if formula.hasPrime then
    throw (.primed formula)
  let _ ← (Problem.ofFormulas [formula]).mapError .ofCompileError
  pure ()

def assert (solver : Solver) (marker : Option Marker) (formula : Formula) :
    Except SolverError Solver := do
  demandAssertable formula
  pure { solver with assertions := solver.assertions ++ [⟨marker, formula⟩], last := none }

def add (solver : Solver) (formula : Formula) : Except SolverError Solver :=
  solver.assert none formula

def addTo (solver : Solver) (marker : Marker) (formula : Formula) : Except SolverError Solver := do
  solver.demandMarker marker
  solver.assert (some marker) formula

/-! ## Checking -/

def model (solver : Solver) : Except SolverError Valuation :=
  match solver.last with
  | some (.sat model) => .ok model
  | _ => .error (.noModel solver.status)

def lastCheck (problem : Problem) : Problem.Answer → LastCheck
  | .sat box => .sat (SortedMap.ofList (problem.circuit.valuation box))
  | .unsat => .unsat
  | .unknown => .unknown

def check (solver : Solver) : Except SolverError (Status × Solver) := do
  let problem ← (Problem.ofFormulas solver.formulas).mapError .ofCompileError
  let (answer, effort) := problem.solve solver.limits.maxDecisions
  let last := lastCheck problem answer
  let solver := { solver with
    last := some last
    counts := { solver.counts with
      checks := solver.counts.checks + 1
      decisions := solver.counts.decisions + effort.decisions
      conflicts := solver.counts.conflicts + effort.conflicts } }
  let solver := solver.log .trace
    ("Check of " ++ solver.assertions.length.repr ++ " assertion(s) over "
      ++ problem.circuit.inputs.size.repr ++ " symbol(s): " ++ effort.decisions.repr
      ++ " decision(s), " ++ effort.conflicts.repr ++ " conflict(s)")
  let solver :=
    if last.status = .unknown then
      solver.log .debug ("Decision budget of " ++ solver.limits.maxDecisions.repr
        ++ " exhausted, answering unknown")
    else
      solver
  pure (last.status, solver)

/-! ## Interpolation -/

/-- The formulas of a group. Unmarked assertions belong to every group. -/
def group (solver : Solver) (marker : Marker) : List Formula :=
  (solver.assertions.filter fun assertion =>
    assertion.marker.isNone || assertion.marker = some marker).map Assertion.formula

def outsiders (solver : Solver) (pattern : Pattern) : List Marker :=
  (solver.assertions.filterMap Assertion.marker).filter fun marker => !pattern.mentions marker

def sharedInputs (problem : Problem) (others : List Formula) : List Nat :=
  let symbols := others.foldl (fun symbols formula =>
    SortedSet.addAll symbols formula.symbols.keys) SortedMap.empty
  (List.range problem.circuit.inputs.size).filter fun index =>
    match problem.circuit.inputs[index]? with
    | some input => symbols.contains input.symbol
    | none => false

/-- The strongest interpolant of the last check: the projection of the first
group onto the symbols that it shares with the second. -/
def interpolant (solver : Solver) (pattern : Pattern) :
    Except SolverError (Interpolant × Solver) := do
  if !(solver.owns pattern.first && solver.owns pattern.second) then
    throw (.unknownPattern pattern)
  if solver.status ≠ some .unsat then
    throw (.noInterpolant solver.status)
  if let marker :: _ := solver.outsiders pattern then
    throw (.markerOutsidePattern marker)
  let problem ← (Problem.ofFormulas (solver.group pattern.first)).mapError .ofCompileError
  let shared := sharedInputs problem (solver.group pattern.second)
  let (cubes, effort) ← (problem.project shared solver.limits).mapError .exhausted
  let merged := Cube.compress cubes.toList
  let inputs := shared.filterMap fun index => problem.circuit.inputs[index]?
  let formula := Cube.toFormula inputs merged
  let solver := { solver with
    counts := { solver.counts with interpolants := solver.counts.interpolants + 1 } }
  let solver := solver.log .trace
    ("Projected onto " ++ shared.length.repr ++ " symbol(s): " ++ cubes.size.repr
      ++ " cube(s), " ++ effort.decisions.repr ++ " decision(s), " ++ effort.conflicts.repr
      ++ " conflict(s)")
  let solver := solver.log .debug
    ("Interpolant over " ++ shared.length.repr ++ " shared symbol(s) from "
      ++ merged.length.repr ++ " cube(s)")
  pure (⟨pattern, formula⟩, solver)

end Solver

end SymbolicSafety
