import SymbolicSafety.Formula.Builders

namespace SymbolicSafety

/-! Rebuilding a formula from its parts. A rule may fail or count its uses: it
runs in any monad. -/

namespace Formula

def mapChildrenM [Monad m] (change : Formula → m Formula) : Formula → m Formula
  | .bool value => pure (.bool value)
  | .int value => pure (.int value)
  | .symbol name => pure (.symbol name)
  | .unary op operand => do pure (.unary op (← change operand))
  | .binary op left right => do
      let left ← change left
      let right ← change right
      pure (.binary op left right)
  | .nary op operands => do pure (.nary op (← operands.mapM change))
  | .ite condition consequent alternative => do
      let condition ← change condition
      let consequent ← change consequent
      let alternative ← change alternative
      pure (.ite condition consequent alternative)

mutual

/-- Rebuild from the leaves up: the operands of a node are transformed first,
then `rule` is applied to the rebuilt node. -/
def transformM [Monad m] (rule : Formula → m Formula) : Formula → m Formula
  | .bool value => rule (.bool value)
  | .int value => rule (.int value)
  | .symbol name => rule (.symbol name)
  | .unary op operand => do
      let operand ← operand.transformM rule
      rule (.unary op operand)
  | .binary op left right => do
      let left ← left.transformM rule
      let right ← right.transformM rule
      rule (.binary op left right)
  | .nary op operands => do
      let operands ← transformAllM rule operands
      rule (.nary op operands)
  | .ite condition consequent alternative => do
      let condition ← condition.transformM rule
      let consequent ← consequent.transformM rule
      let alternative ← alternative.transformM rule
      rule (.ite condition consequent alternative)

def transformAllM [Monad m] (rule : Formula → m Formula) : List Formula → m (List Formula)
  | [] => pure []
  | operand :: rest => do
      let operand ← operand.transformM rule
      let rest ← transformAllM rule rest
      pure (operand :: rest)

end

def transform (rule : Formula → Formula) (formula : Formula) : Formula :=
  formula.transformM (m := Id) fun node => rule node

end Formula

end SymbolicSafety
