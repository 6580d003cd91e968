import SymbolicSafety.Formula.Evaluation
import SymbolicSafety.Formula.Printer

namespace SymbolicSafety

/-! The text of a formula, and what is said about one at fault. A message that
quotes a formula exists only if the formula can be printed. -/

namespace Formula

/-! ## The limit on nesting -/

/-- At most this many pairs of parentheses can be open at once. -/
def maxNesting : Nat := 255

def nestingBelow (parent : Kind) (operand : Formula) (inner : Nat) : Nat :=
  if operand.needsParens parent then inner + 1 else inner

mutual

/-- How many pairs of parentheses are open at once, at most, in the text. -/
def nesting : Formula → Nat
  | .bool _ | .int _ | .symbol _ => 0
  | .unary op operand => nestingBelow op.kind operand operand.nesting
  | .binary op left right =>
      max (nestingBelow op.kind left left.nesting) (nestingBelow op.kind right right.nesting)
  | .nary op operands => nestingAll op.kind operands
  | .ite condition consequent alternative =>
      max (nestingBelow .ite condition condition.nesting)
        (max (nestingBelow .ite consequent consequent.nesting)
          (nestingBelow .ite alternative alternative.nesting))

def nestingAll (parent : Kind) : List Formula → Nat
  | [] => 0
  | operand :: rest =>
      max (nestingBelow parent operand operand.nesting) (nestingAll parent rest)

end

def printable (formula : Formula) : Bool := formula.nesting ≤ maxNesting

def render? (formula : Formula) (width : Nat) : Option String :=
  if formula.printable then some ((formula.document 0).render width) else none

def renderColoured? (formula : Formula) (width : Nat) : Option String :=
  if formula.printable then some ((formula.document 0).renderColoured width) else none

def text? (formula : Formula) : Option String := formula.render? 80

end Formula

/-! ## Messages -/

def SortMismatch.message? (fault : SortMismatch) : Option String := do
  let operand ← fault.operand.text?
  pure ("Type mismatch in `" ++ operand ++ "`: expected " ++ fault.expected.text ++ ", found "
    ++ fault.found.text ++ ".")

def EvalError.message? : EvalError → Option String
  | .unbound symbol =>
      some ("Symbol `" ++ symbol.text ++ "` has no value in the current valuation.")
  | .mismatch fault => fault.message?
  | .primed formula => do
      let formula ← formula.text?
      pure ("Unexpected primed reference `" ++ formula
        ++ "`; only state formulas are accepted here.")
  | .overflow formula => do
      let formula ← formula.text?
      pure ("Integer overflow while evaluating `" ++ formula ++ "`.")

end SymbolicSafety
