import SymbolicSafety.Formula.Basic

namespace SymbolicSafety

/-! Sorts of formulas. Operands are examined from left to right and the first
fault is reported. -/

structure SortMismatch where
  operand : Formula
  expected : ValueSort
  found : ValueSort
  deriving DecidableEq, Repr

namespace Formula

def demand (operand : Formula) (expected : ValueSort) (inferred : Except SortMismatch ValueSort) :
    Except SortMismatch Unit := do
  let found ← inferred
  if found = expected then pure () else throw ⟨operand, expected, found⟩

end Formula

/-- The sort of the operands of a list operator, which is also its own. -/
def NaryOp.sort : NaryOp → ValueSort
  | .and | .or => .bool
  | .add | .mul => .int

namespace Formula

mutual

def inferSort : Formula → Except SortMismatch ValueSort
  | .bool _ => pure .bool
  | .int _ => pure .int
  | .symbol name => pure name.domain.sort
  | .unary .prime operand => operand.inferSort
  | .unary .not operand => do
      demand operand .bool operand.inferSort
      pure .bool
  | .unary .neg operand => do
      demand operand .int operand.inferSort
      pure .int
  | .binary op left right =>
      match op with
      | .implies | .iff => do
          demand left .bool left.inferSort
          demand right .bool right.inferSort
          pure .bool
      | .eq | .neq => do
          let sort ← left.inferSort
          demand right sort right.inferSort
          pure .bool
      | .lt | .leq | .gt | .geq => do
          demand left .int left.inferSort
          demand right .int right.inferSort
          pure .bool
      | .sub | .div | .mod => do
          demand left .int left.inferSort
          demand right .int right.inferSort
          pure .int
  | .nary op operands => do
      demandAll op.sort operands
      pure op.sort
  | .ite condition consequent alternative => do
      demand condition .bool condition.inferSort
      let sort ← consequent.inferSort
      demand alternative sort alternative.inferSort
      pure sort

def demandAll (expected : ValueSort) : List Formula → Except SortMismatch Unit
  | [] => pure ()
  | operand :: rest => do
      demand operand expected operand.inferSort
      demandAll expected rest

end

end Formula

end SymbolicSafety
