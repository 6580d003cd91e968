import SymbolicSafety.Formula.Message
import SymbolicSafety.Formula.Traversal
import SymbolicSafety.System.Unfolding

namespace SymbolicSafety

/-! Guarded commands, and the formulas that describe their executions. Every
assignment gives its variable a new version, so that a statement becomes a list
of constraints between the versions before it and those after it. -/

inductive Statement where
  | skip
  | assign (var : Variable) (value : Formula)
  | assume (condition : Formula)
  | havoc (var : Variable)
  | sequence (steps : List Statement)
  /-- Any one of the branches. Without branches, nothing happens. -/
  | choice (branches : List Statement)
  deriving Repr, Inhabited

structure Lowered where
  constraints : List Formula
  indexing : Indexing

def Lowered.formula (lowered : Lowered) : Formula := .mkAnd lowered.constraints

namespace Lowered

def padding (lowered : Lowered) (target : Indexing) : List Formula :=
  target.entries.entries.filterMap fun (var, index) =>
    let reached := lowered.indexing.get var
    if reached < index then some (.mkEq (.version var index) (.version var reached)) else none

/-- The branches as one constraint, each padded so that all of them end at the
same indexing. -/
def merge (start : Indexing) (branches : List Lowered) : Lowered :=
  let joined := branches.foldl (fun joined branch => joined.join branch.indexing) start
  ⟨[.mkOr (branches.map fun branch => .mkAnd (branch.constraints ++ branch.padding joined))],
    joined⟩

end Lowered

namespace Statement

mutual

def lower? (indexing : Indexing) : Statement → Option Lowered
  | .skip => some ⟨[], indexing⟩
  | .assign var value => do
      let next ← indexing.next? var
      let value ← value.unfoldAt? indexing
      pure ⟨[.mkEq (.version var (next.get var)) value], next⟩
  | .assume condition => do
      let condition ← condition.unfoldAt? indexing
      pure ⟨[condition], indexing⟩
  | .havoc var => do
      let next ← indexing.next? var
      pure ⟨[], next⟩
  | .sequence steps => lowerSteps? indexing steps
  | .choice [] => some ⟨[], indexing⟩
  | .choice (first :: rest) => do
      let first ← first.lower? indexing
      let rest ← lowerBranches? indexing rest
      pure (.merge indexing (first :: rest))

def lowerSteps? (indexing : Indexing) : List Statement → Option Lowered
  | [] => some ⟨[], indexing⟩
  | step :: rest => do
      let first ← step.lower? indexing
      let second ← lowerSteps? first.indexing rest
      pure ⟨first.constraints ++ second.constraints, second.indexing⟩

def lowerBranches? (indexing : Indexing) : List Statement → Option (List Lowered)
  | [] => some []
  | branch :: rest => do
      let branch ← branch.lower? indexing
      let rest ← lowerBranches? indexing rest
      pure (branch :: rest)

end

mutual

def vars : Statement → SortedSet Variable
  | .skip => SortedMap.empty
  | .assign var value => SortedSet.add value.vars var
  | .assume condition => condition.vars
  | .havoc var => SortedSet.add SortedMap.empty var
  | .sequence steps => varsOfAll steps
  | .choice branches => varsOfAll branches

def varsOfAll : List Statement → SortedSet Variable
  | [] => SortedMap.empty
  | statement :: rest => SortedSet.addAll (varsOfAll rest) statement.vars.keys

end

mutual

def text? : Statement → Option String
  | .skip => some "skip"
  | .assign var value => do pure (var.name ++ " := " ++ (← value.text?))
  | .assume condition => do pure ("assume " ++ (← condition.text?))
  | .havoc var => some ("havoc " ++ var.name)
  | .sequence steps => do
      pure ("\x7b " ++ "; ".intercalate (← textsOfAll? steps) ++ " \x7d")
  | .choice branches => do
      let branches ← textsOfAll? branches
      let blocks := branches.map fun branch => " \x7b " ++ branch ++ " \x7d"
      pure ("choice" ++ " or".intercalate blocks)

def textsOfAll? : List Statement → Option (List String)
  | [] => some []
  | statement :: rest => do
      let statement ← statement.text?
      let rest ← textsOfAll? rest
      pure (statement :: rest)

end

end Statement

end SymbolicSafety
