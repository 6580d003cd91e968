import SymbolicSafety.Formula.Message
import SymbolicSafety.Search.Cube

namespace SymbolicSafety

/-! What a solver answers and what it refuses. Assertions can be put into groups,
and interpolants are asked for between two of them. -/

inductive Status where
  | sat
  | unsat
  | unknown
  deriving DecidableEq, Repr

def Status.text : Status → String
  | .sat => "sat"
  | .unsat => "unsat"
  | .unknown => "unknown"

def Status.quote : Option Status → String
  | none => "None"
  | some .sat => "Some(Sat)"
  | some .unsat => "Some(Unsat)"
  | some .unknown => "Some(Unknown)"

/-! ## Groups and interpolants -/

structure Marker where
  solver : Nat
  id : Nat
  deriving DecidableEq, Repr, Inhabited

def Marker.text (marker : Marker) : String :=
  "#" ++ marker.solver.repr ++ "." ++ marker.id.repr

structure Pattern where
  first : Marker
  second : Marker
  deriving DecidableEq, Repr, Inhabited

def Pattern.mentions (pattern : Pattern) (marker : Marker) : Bool :=
  pattern.first = marker || pattern.second = marker

structure Interpolant where
  pattern : Pattern
  formula : Formula
  deriving Repr

/-- The formula reached after a group: the interpolant after the first one, and
falsity after the second. -/
def Interpolant.label? (interpolant : Interpolant) (marker : Marker) : Option Formula :=
  if marker = interpolant.pattern.first then some interpolant.formula
  else if marker = interpolant.pattern.second then some (.bool false)
  else none

/-! ## Refusals -/

inductive SolverError where
  | illSorted (fault : SortMismatch)
  | notBoolean (formula : Formula) (found : ValueSort)
  | primed (formula : Formula)
  | unbounded (symbol : Symbol)
  | popUnderflow (requested available : Nat)
  | unknownMarker (marker : Marker)
  | unknownPattern (pattern : Pattern)
  | markerOutsidePattern (marker : Marker)
  | noInterpolant (last : Option Status)
  | noModel (last : Option Status)
  | exhausted (what : Exhaustion)
  deriving DecidableEq, Repr

namespace SolverError

def ofCompileError : CompileError → SolverError
  | .unbounded symbol => .unbounded symbol
  | .primed formula => .primed formula

def message? : SolverError → Option String
  | .illSorted fault => fault.message?
  | .notBoolean formula found => do
      let formula ← formula.text?
      pure ("Assertion `" ++ formula ++ "` has sort " ++ found.text
        ++ ", expected a Boolean formula.")
  | .primed formula => do
      let formula ← formula.text?
      pure ("Assertion `" ++ formula
        ++ "` contains a primed reference; unfold it before asserting.")
  | .unbounded symbol =>
      some ("Symbol `" ++ symbol.text ++ "` ranges over an unbounded domain; "
        ++ "only Bool and bounded integers are supported.")
  | .popUnderflow requested available =>
      some ("Cannot pop " ++ requested.repr ++ " scope(s): only " ++ available.repr
        ++ " are open.")
  | .unknownMarker marker =>
      some ("Marker " ++ marker.text ++ " was not created by this solver.")
  | .unknownPattern pattern =>
      some ("Pattern (" ++ pattern.first.text ++ ", " ++ pattern.second.text
        ++ ") was not created by this solver.")
  | .markerOutsidePattern marker =>
      some ("Marker " ++ marker.text
        ++ " has assertions but is not part of the requested pattern.")
  | .noInterpolant last =>
      some ("No interpolant available: the last check returned " ++ Status.quote last
        ++ " or the scope changed since.")
  | .noModel last =>
      some ("No model available: the last check returned " ++ Status.quote last
        ++ " or the scope changed since.")
  | .exhausted what => some ("Resource budget exhausted: " ++ what.message ++ ".")

end SolverError

end SymbolicSafety
