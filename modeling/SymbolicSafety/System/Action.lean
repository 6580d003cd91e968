import SymbolicSafety.System.Statement

namespace SymbolicSafety

/-! One step of a transition system. -/

/-- A formula between the current state and the next, and by how many versions
the step takes each variable forward. -/
structure Action where
  formula : Formula
  delta : Indexing
  deriving DecidableEq

namespace Formula

def deepen (depths : SortedMap Variable Nat) (var : Variable) (primes : Nat) :
    SortedMap Variable Nat :=
  depths.insert var (max ((depths.get? var).getD 0) primes)

mutual

def collectPrimeDepths (primes : Nat) :
    Formula → SortedMap Variable Nat → SortedMap Variable Nat
  | .bool _, depths | .int _, depths | .symbol (.version ..), depths => depths
  | .symbol (.current var), depths => deepen depths var primes
  | .unary .prime operand, depths => operand.collectPrimeDepths (primes + 1) depths
  | .unary _ operand, depths => operand.collectPrimeDepths primes depths
  | .binary _ left right, depths =>
      right.collectPrimeDepths primes (left.collectPrimeDepths primes depths)
  | .nary _ operands, depths => collectAllPrimeDepths primes operands depths
  | .ite condition consequent alternative, depths =>
      alternative.collectPrimeDepths primes
        (consequent.collectPrimeDepths primes (condition.collectPrimeDepths primes depths))

def collectAllPrimeDepths (primes : Nat) :
    List Formula → SortedMap Variable Nat → SortedMap Variable Nat
  | [], depths => depths
  | operand :: rest, depths =>
      collectAllPrimeDepths primes rest (operand.collectPrimeDepths primes depths)

end

def primeDepths (formula : Formula) : SortedMap Variable Nat :=
  formula.collectPrimeDepths 0 SortedMap.empty

end Formula

namespace Action

/-- A step given by a formula with primes. A variable that is nowhere primed
keeps its version, and so its value. -/
def ofFormula? (formula : Formula) : Option Action := do
  let delta ← formula.primeDepths.entries.foldlM (fun delta entry => do
    pure (delta.set entry.1 (← Version.ofNat? entry.2))) (Indexing.all 0)
  pure ⟨formula, delta⟩

def ofParts? (parts : List Formula) : Option Action := ofFormula? (.mkAnd parts)

end Action

inductive ActionError where
  | versionOverflow
  | negativePrime (fault : NegativePrime)

def Action.ofStatement (statement : Statement) : Except ActionError Action := do
  let base := Indexing.all 0
  match statement.lower? base with
  | none => throw .versionOverflow
  | some lowered =>
      let formula ← (lowered.formula.fold base).mapError .negativePrime
      pure ⟨formula, lowered.indexing⟩

end SymbolicSafety
