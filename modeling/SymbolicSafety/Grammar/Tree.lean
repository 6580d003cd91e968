import SymbolicSafety.Formula.Basic
import SymbolicSafety.Foundation.SortedMap
import SymbolicSafety.Grammar.Token

namespace SymbolicSafety

/-! What a text says before its names are looked up. -/

/-- A formula over names. Parentheses are remembered, because a minus in front
of a bare literal belongs to the literal and one in front of parentheses does
not. -/
inductive Tree where
  | bool (value : Bool)
  | int (value : Int64)
  | current (name : String)
  | version (name : String) (index : UInt32)
  | unary (op : UnaryOp) (operand : Tree)
  | binary (op : BinaryOp) (left right : Tree)
  | nary (op : NaryOp) (operands : List Tree)
  | ite (condition consequent alternative : Tree)
  | group (inner : Tree)
  deriving Repr, Inhabited

abbrev Scope := SortedMap String Variable

namespace Scope

def declare (scope : Scope) (var : Variable) : Scope := SortedMap.insert scope var.name var

def ofVariables (vars : List Variable) : Scope := vars.foldl declare SortedMap.empty

def find (scope : Scope) (name : String) : Except ReadError Variable :=
  match scope.get? name with
  | some var => .ok var
  | none => .error (.unknownName name)

end Scope

namespace Tree

mutual

def resolve (scope : Scope) : Tree → Except ReadError Formula
  | .bool value => .ok (.bool value)
  | .int value => .ok (.int value)
  | .current name => do pure (.current (← scope.find name))
  | .version name index => do pure (.version (← scope.find name) index)
  | .unary op operand => do pure (.unary op (← operand.resolve scope))
  | .binary op left right => do
      let left ← left.resolve scope
      let right ← right.resolve scope
      pure (.binary op left right)
  | .nary op operands => do pure (.nary op (← resolveAll scope operands))
  | .ite condition consequent alternative => do
      let condition ← condition.resolve scope
      let consequent ← consequent.resolve scope
      let alternative ← alternative.resolve scope
      pure (.ite condition consequent alternative)
  | .group inner => inner.resolve scope

def resolveAll (scope : Scope) : List Tree → Except ReadError (List Formula)
  | [] => .ok []
  | operand :: rest => do
      let operand ← operand.resolve scope
      let rest ← resolveAll scope rest
      pure (operand :: rest)

end

end Tree

end SymbolicSafety
