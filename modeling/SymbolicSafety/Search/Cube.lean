import SymbolicSafety.Formula.Builders
import SymbolicSafety.Search.Exploration

namespace SymbolicSafety

/-! Projections as unions of cubes. A cube gives an interval to each of a list
of inputs; the projection of a problem onto these inputs is enumerated as
cubes every point of which extends to a solution. Cubes that touch are then
merged, and what remains is written as a disjunction of range constraints. -/

abbrev Cube := List Interval

namespace Cube

def along (cube : Cube) (dimension : Nat) : Interval := cube.getD dimension .full

/-! ## Merging -/

def key (dimension : Nat) (cube : Cube) : List Int :=
  (cube.eraseIdx dimension ++ [cube.along dimension]).flatMap fun interval =>
    [interval.lo, interval.hi]

def sortedAlong (dimension : Nat) (cubes : List Cube) : List Cube :=
  cubes.mergeSort fun left right => (compare (left.key dimension) (right.key dimension)).isLE

/-- Merge neighbours whose intervals overlap or touch along the one dimension
in which they differ. -/
def mergeNeighbours (dimension : Nat) : List Cube → List Cube
  | [] => []
  | [cube] => [cube]
  | cube :: next :: rest =>
      if cube.eraseIdx dimension = next.eraseIdx dimension ∧
          (next.along dimension).lo ≤ Wide.add (cube.along dimension).hi 1 then
        let merged := (cube.along dimension).hull (next.along dimension)
        mergeNeighbours dimension (cube.set dimension merged :: rest)
      else
        cube :: mergeNeighbours dimension (next :: rest)
termination_by cubes => cubes.length

def mergeAlong (dimension : Nat) (cubes : List Cube) : List Cube :=
  mergeNeighbours dimension (sortedAlong dimension cubes)

def sweep (cubes : List Cube) : List Cube :=
  let dimensions := (cubes.head?.map List.length).getD 0
  (List.range dimensions).reverse.foldl (fun cubes dimension => mergeAlong dimension cubes) cubes

/-- Sweep until nothing merges any more. -/
def compress (cubes : List Cube) : List Cube :=
  let swept := sweep cubes
  if swept.length < cubes.length then compress swept else swept
termination_by cubes.length

/-! ## Constraints -/

def constraint? (input : Input) (interval : Interval) : Option Formula :=
  let symbol : Formula := .symbol input.symbol
  let lo : Formula := .int (Int64.ofInt interval.lo)
  let hi : Formula := .int (Int64.ofInt interval.hi)
  if interval = input.domain then none
  else if input.symbol.domain = .bool then
    some (if interval.isTrue then symbol else .mkNot symbol)
  else if interval.isPoint then some (.mkEq symbol lo)
  else if interval.lo = input.domain.lo then some (.mkLeq symbol hi)
  else if interval.hi = input.domain.hi then some (.mkGeq symbol lo)
  else some (.mkAnd [.mkGeq symbol lo, .mkLeq symbol hi])

def toFormula (inputs : List Input) (cubes : List Cube) : Formula :=
  .mkOr (cubes.map fun cube =>
    .mkAnd ((inputs.zip cube).filterMap fun (input, interval) => constraint? input interval))

end Cube

/-! ## Enumeration -/

structure Limits where
  maxDecisions : Nat
  maxCubes : Nat
  deriving DecidableEq, Repr

inductive Exhaustion where
  | cubes (limit : Nat)
  | decisions (limit : Nat)
  deriving DecidableEq, Repr

def Exhaustion.message : Exhaustion → String
  | .cubes limit => "projection needs more than " ++ limit.repr ++ " cubes"
  | .decisions limit => "projection exceeded the budget of " ++ limit.repr ++ " decisions"

namespace Problem

inductive Contribution where
  | cube
  | nothing
  | split (input : Nat)
  | unknown

/-- Only projected inputs are halved. Once they leave nothing to halve, a search
over the other inputs tells whether the box can be completed at all. -/
def contribution (problem : Problem) (onto : List Nat) (budget : Nat) (effort : Effort)
    (enclosed : Enclosed) : Contribution × Effort :=
  match problem.choose onto.contains enclosed with
  | .satisfied => (.cube, effort)
  | .split input => (.split input, effort)
  | .stuck =>
      match problem.explore budget effort [enclosed.box] with
      | (.sat _, effort) => (.cube, effort)
      | (.unsat, effort) => (.nothing, effort)
      | (.unknown, effort) => (.unknown, effort)

theorem decisions_le_contribution (problem : Problem) (onto : List Nat) (budget : Nat)
    (effort : Effort) (enclosed : Enclosed) :
    effort.decisions ≤ (problem.contribution onto budget effort enclosed).2.decisions := by
  have more := decisions_le_explore problem budget effort [enclosed.box]
  unfold contribution
  split
  · exact Nat.le_refl _
  · exact Nat.le_refl _
  · split <;> simp_all

/-- Enumerate the cubes of the waiting boxes. Decisions spent on completing
boxes count as well. -/
def enumerate (problem : Problem) (onto : List Nat) (limits : Limits) (effort : Effort)
    (cubes : Array Cube) (waiting : List Box) : Except Exhaustion (Array Cube × Effort) :=
  match waiting with
  | [] => .ok (cubes, effort)
  | box :: waiting =>
      match problem.propagate box with
      | .error _ => problem.enumerate onto limits effort.conflict cubes waiting
      | .ok enclosed =>
          have := decisions_le_contribution problem onto limits.maxDecisions effort enclosed
          let outcome := problem.contribution onto limits.maxDecisions effort enclosed
          match outcome.1 with
          | .unknown => .error (.decisions limits.maxDecisions)
          | .nothing => problem.enumerate onto limits outcome.2 cubes waiting
          | .cube =>
              let cubes := cubes.push (onto.map fun input => enclosed.box.getD input .full)
              if limits.maxCubes < cubes.size then
                .error (.cubes limits.maxCubes)
              else
                problem.enumerate onto limits outcome.2 cubes waiting
          | .split input =>
              if outcome.2.decisions < limits.maxDecisions then
                let (lower, upper) := halves enclosed.box input
                problem.enumerate onto limits outcome.2.decision cubes (lower :: upper :: waiting)
              else
                .error (.decisions limits.maxDecisions)
termination_by 2 * (limits.maxDecisions - effort.decisions) + waiting.length
decreasing_by
  all_goals simp +zetaDelta only [Effort.conflict, Effort.decision, List.length_cons] at *; omega

def project (problem : Problem) (onto : List Nat) (limits : Limits) :
    Except Exhaustion (Array Cube × Effort) :=
  problem.enumerate onto limits .none #[] [problem.circuit.wholeBox]

end Problem

end SymbolicSafety
