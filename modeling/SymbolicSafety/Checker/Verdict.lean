import SymbolicSafety.Duration
import SymbolicSafety.Formula.Basic

namespace SymbolicSafety

/-! What a safety check finds out. -/

inductive UnknownReason where
  | boundReached (bound : Nat)
  | inconclusive
  | timeout
  | cancelled
  deriving DecidableEq, Repr

def UnknownReason.text : UnknownReason → String
  | .boundReached bound => "bound " ++ bound.repr ++ " reached"
  | .inconclusive => "solver inconclusive"
  | .timeout => "timeout"
  | .cancelled => "cancelled"

structure Counterexample (State : Type) where
  depth : Nat
  states : List State
  deriving DecidableEq, Repr

structure SafetyProof where
  depth : Nat
  disjuncts : Nat
  image : Formula
  deriving DecidableEq, Repr

inductive Verdict (State : Type) where
  | safe (proof : SafetyProof)
  | violated (counterexample : Counterexample State)
  | unknown (reason : UnknownReason)
  deriving DecidableEq, Repr

namespace Verdict

variable {State : Type}

def text : Verdict State → String
  | .safe proof =>
      "safe (depth " ++ proof.depth.repr ++ ", " ++ proof.disjuncts.repr ++ " image disjuncts)"
  | .violated counterexample => "unsafe (depth " ++ counterexample.depth.repr ++ ")"
  | .unknown reason => "unknown (" ++ reason.text ++ ")"

def isSafe : Verdict State → Bool
  | .safe _ => true
  | _ => false

def isViolated : Verdict State → Bool
  | .violated _ => true
  | _ => false

def isUnknown : Verdict State → Bool
  | .unknown _ => true
  | _ => false

def proof? : Verdict State → Option SafetyProof
  | .safe proof => some proof
  | _ => none

def counterexample? : Verdict State → Option (Counterexample State)
  | .violated counterexample => some counterexample
  | _ => none

def reason? : Verdict State → Option UnknownReason
  | .unknown reason => some reason
  | _ => none

end Verdict

structure Statistics where
  iterations : Nat := 0
  checks : Nat := 0
  refinements : Nat := 0
  elapsed : Duration := Duration.zero
  deriving DecidableEq, Repr

def Statistics.text (statistics : Statistics) : String :=
  statistics.iterations.repr ++ " iterations, " ++ statistics.checks.repr
    ++ " solver checks, " ++ statistics.refinements.repr ++ " refinements in "
    ++ statistics.elapsed.text

structure SafetyResult (State : Type) where
  verdict : Verdict State
  statistics : Statistics
  deriving DecidableEq, Repr

def SafetyResult.text {State : Type} (result : SafetyResult State) : String :=
  result.verdict.text ++ " [" ++ result.statistics.text ++ "]"

end SymbolicSafety
