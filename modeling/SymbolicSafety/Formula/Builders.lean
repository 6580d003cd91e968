import SymbolicSafety.Formula.Basic

namespace SymbolicSafety

/-! Builders that simplify what they build. The Boolean builders fold truth
values, drop neutral operands and flatten nested conjunctions and
disjunctions; the arithmetic and comparison builders fold literals. -/

def BinaryOp.compareWords? : BinaryOp → Int64 → Int64 → Option Bool
  | .eq, left, right => some (left = right)
  | .neq, left, right => some (left ≠ right)
  | .lt, left, right => some (left < right)
  | .leq, left, right => some (left ≤ right)
  | .gt, left, right => some (right < left)
  | .geq, left, right => some (right ≤ left)
  | .implies, _, _ | .iff, _, _ | .sub, _, _ | .div, _, _ | .mod, _, _ => none

namespace Formula

/-! ## Boolean builders -/

def mkNot : Formula → Formula
  | .bool value => .bool !value
  | .unary .not operand => operand
  | formula => .unary .not formula

def spread (op : NaryOp) (neutral : Bool) : Formula → List Formula
  | .bool value => if value = neutral then [] else [.bool value]
  | .nary op' operands => if op' = op then operands else [.nary op' operands]
  | formula => [formula]

/-- A conjunction or disjunction. One absorbing operand decides it; no operand
leaves the neutral value, and a single operand stands for itself. -/
def junction (op : NaryOp) (neutral : Bool) (operands : List Formula) : Formula :=
  if operands.contains (.bool !neutral) then
    .bool !neutral
  else
    match operands.flatMap (spread op neutral) with
    | [] => .bool neutral
    | [operand] => operand
    | operands => .nary op operands

def mkAnd (operands : List Formula) : Formula := junction .and true operands

def mkOr (operands : List Formula) : Formula := junction .or false operands

def mkImplies : Formula → Formula → Formula
  | .bool false, _ => .bool true
  | _, .bool true => .bool true
  | .bool true, consequent => consequent
  | antecedent, .bool false => mkNot antecedent
  | antecedent, consequent => .binary .implies antecedent consequent

def mkIff : Formula → Formula → Formula
  | .bool true, formula => formula
  | formula, .bool true => formula
  | .bool false, formula => mkNot formula
  | formula, .bool false => mkNot formula
  | left, right => .binary .iff left right

def mkIte (condition consequent alternative : Formula) : Formula :=
  match condition with
  | .bool value => if value then consequent else alternative
  | condition => .ite condition consequent alternative

/-! ## Comparisons -/

def mkComparison (op : BinaryOp) (left right : Formula) : Formula :=
  match left, right with
  | .int value, .int value' =>
      match op.compareWords? value value' with
      | some holds => .bool holds
      | none => .binary op left right
  | _, _ => .binary op left right

def mkEq : Formula → Formula → Formula := mkComparison .eq

def mkNeq : Formula → Formula → Formula := mkComparison .neq

def mkLt : Formula → Formula → Formula := mkComparison .lt

def mkLeq : Formula → Formula → Formula := mkComparison .leq

def mkGt : Formula → Formula → Formula := mkComparison .gt

def mkGeq : Formula → Formula → Formula := mkComparison .geq

/-! ## Arithmetic -/

/-- Split the operands of a sum into the literals, added up, and the rest with
nested sums opened. A literal that would push the total out of range stays
among the rest, and so do the literals of a nested sum. -/
def gather (total : Int64) : List Formula → List Formula × Int64
  | [] => ([], total)
  | .int value :: operands =>
      match Word.add? total value with
      | some total => gather total operands
      | none =>
          let (rest, total) := gather total operands
          (.int value :: rest, total)
  | .nary .add nested :: operands =>
      let (rest, total) := gather total operands
      (nested ++ rest, total)
  | operand :: operands =>
      let (rest, total) := gather total operands
      (operand :: rest, total)

/-- The collected literal comes last, unless it is zero beside other operands. -/
def mkAdd (operands : List Formula) : Formula :=
  let (rest, total) := gather 0 operands
  let operands := if total ≠ 0 ∨ rest.isEmpty then rest ++ [.int total] else rest
  match operands with
  | [operand] => operand
  | operands => .nary .add operands

def literalProduct? (operands : List Formula) : Option Int64 :=
  operands.foldlM (fun product operand =>
    match operand with
    | .int value => Word.mul? product value
    | _ => none) 1

def mkMul (operands : List Formula) : Formula :=
  match literalProduct? operands with
  | some product => .int product
  | none =>
      match operands with
      | [operand] => operand
      | operands => .nary .mul operands

def mkSub (left right : Formula) : Formula :=
  match left, right with
  | .int value, .int value' =>
      match Word.sub? value value' with
      | some difference => .int difference
      | none => .binary .sub left right
  | _, .int value => if value = 0 then left else .binary .sub left right
  | _, _ => .binary .sub left right

def mkNeg : Formula → Formula
  | .int value =>
      match Word.neg? value with
      | some negated => .int negated
      | none => .unary .neg (.int value)
  | .unary .neg operand => operand
  | formula => .unary .neg formula

def mkDiv (left right : Formula) : Formula := .binary .div left right

def mkMod (left right : Formula) : Formula := .binary .mod left right

def mkPrime (formula : Formula) : Formula := .unary .prime formula

instance : Add Formula := ⟨fun left right => mkAdd [left, right]⟩

instance : Sub Formula := ⟨mkSub⟩

instance : Mul Formula := ⟨fun left right => mkMul [left, right]⟩

instance : Neg Formula := ⟨mkNeg⟩

instance : AndOp Formula := ⟨fun left right => mkAnd [left, right]⟩

instance : OrOp Formula := ⟨fun left right => mkOr [left, right]⟩

/-! ## All operators at once -/

def mkUnary : UnaryOp → Formula → Formula
  | .prime => mkPrime
  | .not => mkNot
  | .neg => mkNeg

def mkBinary : BinaryOp → Formula → Formula → Formula
  | .implies => mkImplies
  | .iff => mkIff
  | .eq => mkEq
  | .neq => mkNeq
  | .lt => mkLt
  | .leq => mkLeq
  | .gt => mkGt
  | .geq => mkGeq
  | .sub => mkSub
  | .div => mkDiv
  | .mod => mkMod

def mkNary : NaryOp → List Formula → Formula
  | .and => mkAnd
  | .or => mkOr
  | .add => mkAdd
  | .mul => mkMul

def rebuild : Formula → Formula
  | .bool value => .bool value
  | .int value => .int value
  | .symbol name => .symbol name
  | .unary op operand => mkUnary op operand
  | .binary op left right => mkBinary op left right
  | .nary op operands => mkNary op operands
  | .ite condition consequent alternative => mkIte condition consequent alternative

end Formula

def Valuation.toFormula (valuation : Valuation) : Formula :=
  .mkAnd (valuation.entries.map fun entry => .mkEq (.symbol entry.1) (.ofValue entry.2))

end SymbolicSafety
