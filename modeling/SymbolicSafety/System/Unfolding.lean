import SymbolicSafety.Formula.Transformation
import SymbolicSafety.System.Indexing

namespace SymbolicSafety

/-! Between formulas about a step and formulas about versions. Unfolding at an
indexing turns a variable under some primes into the version that many after
the current one; folding turns a version back into a variable under primes. -/

namespace Formula

mutual

def unfoldPrimed? (indexing : Indexing) (primes : Nat) : Formula → Option Formula
  | .bool value => some (.bool value)
  | .int value => some (.int value)
  | .symbol (.current var) => do
      let index ← Version.ofNat? ((indexing.get var).toNat + primes)
      pure (.version var index)
  | .symbol (.version var index) => some (.version var index)
  | .unary .prime operand => operand.unfoldPrimed? indexing (primes + 1)
  | .unary op operand => do pure (.unary op (← operand.unfoldPrimed? indexing primes))
  | .binary op left right => do
      let left ← left.unfoldPrimed? indexing primes
      let right ← right.unfoldPrimed? indexing primes
      pure (.binary op left right)
  | .nary op operands => do pure (.nary op (← unfoldAll? indexing primes operands))
  | .ite condition consequent alternative => do
      let condition ← condition.unfoldPrimed? indexing primes
      let consequent ← consequent.unfoldPrimed? indexing primes
      let alternative ← alternative.unfoldPrimed? indexing primes
      pure (.ite condition consequent alternative)

def unfoldAll? (indexing : Indexing) (primes : Nat) : List Formula → Option (List Formula)
  | [] => some []
  | operand :: rest => do
      let operand ← operand.unfoldPrimed? indexing primes
      let rest ← unfoldAll? indexing primes rest
      pure (operand :: rest)

end

/-- Replace every variable by its version, as long as that version exists.
Versions that are already there stay. -/
def unfoldAt? (indexing : Indexing) (formula : Formula) : Option Formula :=
  formula.unfoldPrimed? indexing 0

end Formula

structure NegativePrime where
  var : Variable
  index : UInt32
  base : UInt32
  deriving DecidableEq, Repr

def NegativePrime.message (fault : NegativePrime) : String :=
  "Cannot fold `" ++ (Symbol.version fault.var fault.index).text ++ "` at index "
    ++ fault.base.toNat.repr ++ ": it would need a negative number of primes."

namespace Formula

def primedTimes (var : Variable) : Nat → Formula
  | 0 => .current var
  | primes + 1 => .unary .prime (primedTimes var primes)

def foldNode (indexing : Indexing) : Formula → Except NegativePrime Formula
  | .symbol (.version var index) =>
      match Version.sub? index (indexing.get var) with
      | some primes => .ok (primedTimes var primes.toNat)
      | none => .error ⟨var, index, indexing.get var⟩
  | formula => .ok formula

def fold (indexing : Indexing) (formula : Formula) : Except NegativePrime Formula :=
  formula.transformM (foldNode indexing)

end Formula

/-- The state that a model describes at an indexing: each variable has the
value of its current version, if the model has one. -/
def Valuation.stateAt (model : Valuation) (indexing : Indexing) : Valuation :=
  SortedMap.ofList (model.entries.filterMap fun entry =>
    match entry.1 with
    | .version var index =>
        if index = indexing.get var then some (.current var, entry.2) else none
    | .current _ => none)

end SymbolicSafety
