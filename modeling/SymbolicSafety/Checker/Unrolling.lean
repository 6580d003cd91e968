import SymbolicSafety.Formula.Builders

namespace SymbolicSafety

/-! An unrolled trace, cut in two behind its first step. An interpolant between
the two parts says where the first step may lead without going wrong later. -/

/-- From which part of the trace interpolants are computed. -/
inductive Direction where
  | forward
  | backward
  deriving DecidableEq, Repr, Inhabited

structure Unrolling where
  start : Formula
  steps : List Formula
  target : Formula

namespace Unrolling

def ofFormulas? (formulas : List Formula) (target : Formula) : Option Unrolling :=
  match formulas with
  | start :: steps => some ⟨start, steps, target⟩
  | [] => none

def head (unrolling : Unrolling) : Formula :=
  .mkAnd (unrolling.start :: unrolling.steps.head?.toList)

def tail (unrolling : Unrolling) : Formula :=
  .mkAnd (unrolling.steps.drop 1 ++ [unrolling.target])

def groups (unrolling : Unrolling) : Direction → Formula × Formula
  | .forward => (unrolling.head, unrolling.tail)
  | .backward => (unrolling.tail, unrolling.head)

end Unrolling

namespace Direction

def image : Direction → Formula → Formula
  | .forward, interpolant => interpolant
  | .backward, interpolant => .mkNot interpolant

def text : Direction → String
  | .forward => "forward"
  | .backward => "backward"

def title : Direction → String
  | .forward => "Forward"
  | .backward => "Backward"

def ofText? : String → Option Direction
  | "forward" => some .forward
  | "backward" => some .backward
  | _ => none

end Direction

end SymbolicSafety
