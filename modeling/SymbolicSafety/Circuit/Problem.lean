import SymbolicSafety.Circuit.Basic
import SymbolicSafety.Formula.Traversal

namespace SymbolicSafety

/-! A conjunction of formulas as a circuit. Each conjunct becomes a root, and
the problem is to make every root true. Equivalences are equations between
truth values, implications are disjunctions, differences are sums, and the
comparisons `>` and `>=` are turned around. -/

inductive CompileError where
  | unbounded (symbol : Symbol)
  | primed (formula : Formula)
  deriving DecidableEq, Repr

structure Root where
  gate : Nat
  inputs : List Nat
  deriving Repr, Inhabited

structure Problem where
  circuit : Circuit
  roots : List Root
  deriving Repr, Inhabited

def Domain.interval? : Domain → Option Interval
  | .bool => some .undecided
  | .int => none
  | .range least greatest => some ⟨least.toInt, greatest.toInt⟩

/-- The gate of a binary operator. For an implication the left operand has
already been negated, and for a difference the right one. -/
def BinaryOp.gate : BinaryOp → Nat → Nat → Gate
  | .implies, left, right => .or [left, right]
  | .iff, left, right | .eq, left, right => .compare .eq left right
  | .neq, left, right => .compare .neq left right
  | .lt, left, right => .compare .lt left right
  | .leq, left, right => .compare .leq left right
  | .gt, left, right => .compare .lt right left
  | .geq, left, right => .compare .leq right left
  | .sub, left, right => .sum [left, right]
  | .div, left, right => .div left right
  | .mod, left, right => .mod left right

def NaryOp.gate : NaryOp → List Nat → Gate
  | .and => .and
  | .or => .or
  | .add => .sum
  | .mul => .product

namespace Circuit

/-- The gate of a symbol: one gate serves all its occurrences. -/
def addSymbol (symbol : Symbol) (circuit : Circuit) : Except CompileError (Circuit × Nat) :=
  match circuit.inputs.find? fun input => input.symbol = symbol with
  | some input => .ok (circuit, input.gate)
  | none =>
      match symbol.domain.interval? with
      | none => .error (.unbounded symbol)
      | some domain =>
          let (circuit, gate) := circuit.push (.input circuit.inputs.size)
          .ok ({ circuit with inputs := circuit.inputs.push ⟨symbol, domain, gate⟩ }, gate)

mutual

def addFormula : Formula → Circuit → Except CompileError (Circuit × Nat)
  | .bool value, circuit => .ok (circuit.push (.constant (if value then 1 else 0)))
  | .int value, circuit => .ok (circuit.push (.constant value.toInt))
  | .symbol name, circuit => circuit.addSymbol name
  | .unary op operand, circuit =>
      match op with
      | .prime => .error (.primed (.unary .prime operand))
      | .not => do
          let (circuit, operand) ← addFormula operand circuit
          pure (circuit.push (.not operand))
      | .neg => do
          let (circuit, operand) ← addFormula operand circuit
          pure (circuit.push (.neg operand))
  | .binary op left right, circuit => do
      let (circuit, left) ← addFormula left circuit
      let (circuit, left) := if op = .implies then circuit.push (.not left) else (circuit, left)
      let (circuit, right) ← addFormula right circuit
      let (circuit, right) := if op = .sub then circuit.push (.neg right) else (circuit, right)
      pure (circuit.push (op.gate left right))
  | .nary op operands, circuit => do
      let (circuit, operands) ← addAll operands circuit
      pure (circuit.push (op.gate operands))
  | .ite condition consequent alternative, circuit => do
      let (circuit, condition) ← addFormula condition circuit
      let (circuit, consequent) ← addFormula consequent circuit
      let (circuit, alternative) ← addFormula alternative circuit
      pure (circuit.push (.choose condition consequent alternative))

def addAll : List Formula → Circuit → Except CompileError (Circuit × List Nat)
  | [], circuit => .ok (circuit, [])
  | operand :: rest, circuit => do
      let (circuit, operand) ← addFormula operand circuit
      let (circuit, rest) ← addAll rest circuit
      pure (circuit, operand :: rest)

end

end Circuit

namespace Problem

def empty : Problem := ⟨.empty, []⟩

def addConjunct (problem : Problem) (conjunct : Formula) : Except CompileError Problem := do
  let (circuit, gate) ← Circuit.addFormula conjunct problem.circuit
  let inputs := (conjunct.symbols.keys.filterMap circuit.inputOf?).mergeSort
  pure ⟨circuit, problem.roots ++ [⟨gate, inputs⟩]⟩

def ofFormulas (formulas : List Formula) : Except CompileError Problem :=
  (formulas.flatMap Formula.conjuncts).foldlM addConjunct empty

def refuted (problem : Problem) (bounds : Bounds) : Bool :=
  problem.roots.any fun root => (bounds.interval root.gate).isFalse

/-! ## Reading a box back -/

end Problem

def Domain.valueOf (domain : Domain) (number : Int) : Value :=
  match domain with
  | .bool => .bool (number ≠ 0)
  | .int | .range .. => .int (Int64.ofInt number)

def Circuit.valuation (circuit : Circuit) (box : Box) : List (Symbol × Value) :=
  (circuit.inputs.zip box).toList.map fun (input, interval) =>
    (input.symbol, input.symbol.domain.valueOf interval.lo)

end SymbolicSafety
