import SymbolicSafety.Checker.Unrolling
import SymbolicSafety.Duration
import SymbolicSafety.System.Action

namespace SymbolicSafety

/-! What is to be checked, and how. -/

/-- A transition system with a property, and the settings of a check. The
initial condition speaks about the versions of the base indexing; action and
property are about plain variables. -/
structure Checker (State : Type) where
  initial : Formula
  base : Indexing
  action : Action
  property : Formula
  reconstruct : Valuation → State
  direction : Direction
  bound : Option Nat
  /-- Whether to look for bad states after every step and not only the last. -/
  cumulative : Bool
  timeout : Option Duration
  bounded : bound ≠ some 0

inductive SetupError where
  | zeroBound
  | missing (what : String)
  deriving DecidableEq, Repr

def SetupError.message : SetupError → String
  | .zeroBound => "The upper bound must be at least 1; leave it unset for unbounded checking."
  | .missing what => "Missing checker input: " ++ what ++ "."

structure Draft (State : Type) where
  initial : Option Formula := none
  base : Indexing := Indexing.all 0
  action : Option Action := none
  property : Option Formula := none
  reconstruct : Option (Valuation → State) := none
  direction : Direction := .forward
  bound : Option Nat := none
  cumulative : Bool := true
  timeout : Option Duration := none

namespace Draft

variable {State : Type}

def demand (what : String) : Option α → Except SetupError α
  | some value => .ok value
  | none => .error (.missing what)

/-- The finished checker. A bound of zero is refused before anything that is
missing. -/
def finish (draft : Draft State) : Except SetupError (Checker State) :=
  if bounded : draft.bound ≠ some 0 then do
    let initial ← demand "initial condition" draft.initial
    let action ← demand "transition action" draft.action
    let property ← demand "property" draft.property
    let reconstruct ← demand "state reconstruction" draft.reconstruct
    pure { draft with initial, action, property, reconstruct, bounded }
  else
    throw .zeroBound

end Draft

end SymbolicSafety
