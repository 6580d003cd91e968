import SymbolicSafety.Formula.Builders
import SymbolicSafety.Formula.Typing

namespace SymbolicSafety

/-! The value of a formula under a valuation. Conjunctions, disjunctions,
implications and conditionals look only at the operands they need; everything
else is evaluated from left to right. Arithmetic that leaves the 64-bit range
has no value. -/

inductive EvalError where
  | unbound (symbol : Symbol)
  | mismatch (fault : SortMismatch)
  | primed (formula : Formula)
  | overflow (formula : Formula)
  deriving DecidableEq, Repr

namespace Formula

def asBool (operand : Formula) (evaluated : Except EvalError Value) : Except EvalError Bool := do
  match ← evaluated with
  | .bool value => pure value
  | .int _ => throw (.mismatch ⟨operand, .bool, .int⟩)

def asInt (operand : Formula) (evaluated : Except EvalError Value) : Except EvalError Int64 := do
  match ← evaluated with
  | .int value => pure value
  | .bool _ => throw (.mismatch ⟨operand, .int, .bool⟩)

def inRange (formula : Formula) : Option Int64 → Except EvalError Value
  | some value => pure (.int value)
  | none => throw (.overflow formula)

mutual

@[simp] def evaluate (valuation : Valuation) : Formula → Except EvalError Value
  | .bool value => pure (.bool value)
  | .int value => pure (.int value)
  | .symbol name =>
      match valuation.get? name with
      | some value => pure value
      | none => throw (.unbound name)
  | .unary .prime operand => throw (.primed (.unary .prime operand))
  | .unary .not operand => do
      let value ← asBool operand (operand.evaluate valuation)
      pure (.bool !value)
  | .unary .neg operand => do
      let value ← asInt operand (operand.evaluate valuation)
      inRange (.unary .neg operand) (Word.neg? value)
  | .binary op left right =>
      match op with
      | .implies => do
          let antecedent ← asBool left (left.evaluate valuation)
          if antecedent then
            let consequent ← asBool right (right.evaluate valuation)
            pure (.bool consequent)
          else
            pure (.bool true)
      | .iff => do
          let first ← asBool left (left.evaluate valuation)
          let second ← asBool right (right.evaluate valuation)
          pure (.bool (first = second))
      | .eq => do
          let first ← left.evaluate valuation
          let second ← right.evaluate valuation
          pure (.bool (first = second))
      | .neq => do
          let first ← left.evaluate valuation
          let second ← right.evaluate valuation
          pure (.bool (first ≠ second))
      | .lt => do
          let first ← asInt left (left.evaluate valuation)
          let second ← asInt right (right.evaluate valuation)
          pure (.bool (first < second))
      | .leq => do
          let first ← asInt left (left.evaluate valuation)
          let second ← asInt right (right.evaluate valuation)
          pure (.bool (first ≤ second))
      | .gt => do
          let first ← asInt left (left.evaluate valuation)
          let second ← asInt right (right.evaluate valuation)
          pure (.bool (second < first))
      | .geq => do
          let first ← asInt left (left.evaluate valuation)
          let second ← asInt right (right.evaluate valuation)
          pure (.bool (second ≤ first))
      | .sub => do
          let first ← asInt left (left.evaluate valuation)
          let second ← asInt right (right.evaluate valuation)
          inRange (.binary .sub left right) (Word.sub? first second)
      | .div => do
          let first ← asInt left (left.evaluate valuation)
          let second ← asInt right (right.evaluate valuation)
          inRange (.binary .div left right) (Word.div? first second)
      | .mod => do
          let first ← asInt left (left.evaluate valuation)
          let second ← asInt right (right.evaluate valuation)
          inRange (.binary .mod left right) (Word.mod? first second)
  | .nary .and operands => do pure (.bool (← evaluateAll valuation operands))
  | .nary .or operands => do pure (.bool (← evaluateAny valuation operands))
  | .nary .add operands => do
      inRange (.nary .add operands) (← evaluateSum valuation 0 operands)
  | .nary .mul operands => do
      inRange (.nary .mul operands) (← evaluateProduct valuation 1 operands)
  | .ite condition consequent alternative => do
      let holds ← asBool condition (condition.evaluate valuation)
      if holds then consequent.evaluate valuation else alternative.evaluate valuation

def evaluateAll (valuation : Valuation) : List Formula → Except EvalError Bool
  | [] => pure true
  | operand :: rest => do
      let holds ← asBool operand (operand.evaluate valuation)
      if holds then evaluateAll valuation rest else pure false

def evaluateAny (valuation : Valuation) : List Formula → Except EvalError Bool
  | [] => pure false
  | operand :: rest => do
      let holds ← asBool operand (operand.evaluate valuation)
      if holds then pure true else evaluateAny valuation rest

/-- The running total after all operands, up to the first that leaves the
range. -/
def evaluateSum (valuation : Valuation) (total : Int64) :
    List Formula → Except EvalError (Option Int64)
  | [] => pure (some total)
  | operand :: rest => do
      let value ← asInt operand (operand.evaluate valuation)
      match Word.add? total value with
      | some total => evaluateSum valuation total rest
      | none => pure none

def evaluateProduct (valuation : Valuation) (product : Int64) :
    List Formula → Except EvalError (Option Int64)
  | [] => pure (some product)
  | operand :: rest => do
      let value ← asInt operand (operand.evaluate valuation)
      match Word.mul? product value with
      | some product => evaluateProduct valuation product rest
      | none => pure none

end

def evaluateBool (valuation : Valuation) (formula : Formula) : Except EvalError Bool :=
  asBool formula (formula.evaluate valuation)

def evaluateInt (valuation : Valuation) (formula : Formula) : Except EvalError Int64 :=
  asInt formula (formula.evaluate valuation)

end Formula

end SymbolicSafety
