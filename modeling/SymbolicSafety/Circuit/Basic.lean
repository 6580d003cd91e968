import SymbolicSafety.Interval
import SymbolicSafety.Variable

namespace SymbolicSafety

/-! Circuits of interval arithmetic. The gates stand in a list and refer to one
another by position; every gate comes after the gates it reads, so one pass
evaluates them all. -/

inductive Gate where
  | constant (value : Int)
  | input (index : Nat)
  | not (operand : Nat)
  | and (operands : List Nat)
  | or (operands : List Nat)
  | compare (comparison : Comparison) (left right : Nat)
  | sum (operands : List Nat)
  | product (operands : List Nat)
  | neg (operand : Nat)
  | div (left right : Nat)
  | mod (left right : Nat)
  | choose (condition consequent alternative : Nat)
  deriving DecidableEq, Repr, Inhabited

namespace Gate

def reads : Gate → List Nat
  | .constant _ | .input _ => []
  | .not operand | .neg operand => [operand]
  | .and operands | .or operands | .sum operands | .product operands => operands
  | .compare _ left right | .div left right | .mod left right => [left, right]
  | .choose condition consequent alternative => [condition, consequent, alternative]

end Gate

/-- A symbol that a circuit takes as input: its domain as an interval, and the
one gate that stands for it. -/
structure Input where
  symbol : Symbol
  domain : Interval
  gate : Nat
  deriving Repr, Inhabited

abbrev Box := Array Interval

abbrev Bounds := Array Interval

/-- The bounds of a gate. A gate that does not exist is unknown. -/
def Bounds.interval (bounds : Bounds) (gate : Nat) : Interval := bounds.getD gate .full

def Bounds.sum (bounds : Bounds) (gates : List Nat) : Interval :=
  gates.foldl (fun total gate => total.add (bounds.interval gate)) (.point 0)

def Bounds.product (bounds : Bounds) (gates : List Nat) : Interval :=
  gates.foldl (fun total gate => total.mul (bounds.interval gate)) (.point 1)

namespace Gate

def enclose (box : Box) (bounds : Bounds) : Gate → Interval
  | .constant value => .point value
  | .input index => box.getD index .full
  | .not operand => (bounds.interval operand).not
  | .and operands => operands.foldl (fun all operand => all.and (bounds.interval operand)) .true
  | .or operands => operands.foldl (fun any operand => any.or (bounds.interval operand)) .false
  | .compare comparison left right =>
      comparison.evaluate (bounds.interval left) (bounds.interval right)
  | .sum operands => bounds.sum operands
  | .product operands => bounds.product operands
  | .neg operand => (bounds.interval operand).neg
  | .div left right => (bounds.interval left).div (bounds.interval right)
  | .mod left right => (bounds.interval left).mod (bounds.interval right)
  | .choose condition consequent alternative =>
      if (bounds.interval condition).isTrue then bounds.interval consequent
      else if (bounds.interval condition).isFalse then bounds.interval alternative
      else (bounds.interval consequent).hull (bounds.interval alternative)

end Gate

structure Circuit where
  gates : Array Gate
  inputs : Array Input
  deriving Repr, Inhabited

namespace Circuit

def empty : Circuit := ⟨#[], #[]⟩

def enclose (circuit : Circuit) (box : Box) : Bounds :=
  circuit.gates.foldl (fun bounds gate => bounds.push (gate.enclose box bounds)) #[]

def wholeBox (circuit : Circuit) : Box := circuit.inputs.map Input.domain

def push (circuit : Circuit) (gate : Gate) : Circuit × Nat :=
  ({ circuit with gates := circuit.gates.push gate }, circuit.gates.size)

def inputOf? (circuit : Circuit) (symbol : Symbol) : Option Nat :=
  circuit.inputs.findIdx? fun input => input.symbol = symbol

end Circuit

end SymbolicSafety
