import SymbolicSafety.Search.Propagation

namespace SymbolicSafety

/-! Depth-first search over boxes. A box is narrowed; if that does not settle
it, the narrowest undecided input is halved and the lower half is explored
first. Every halving is a decision, and decisions are limited. -/

structure Effort where
  decisions : Nat
  conflicts : Nat
  deriving DecidableEq, Repr, Inhabited

namespace Effort

def none : Effort := ⟨0, 0⟩

def conflict (effort : Effort) : Effort := { effort with conflicts := effort.conflicts + 1 }

def decision (effort : Effort) : Effort := { effort with decisions := effort.decisions + 1 }

end Effort

inductive Choice where
  | satisfied
  | split (input : Nat)
  | stuck
  deriving DecidableEq, Repr

namespace Problem

/-- The narrowest of the inputs that still have more than one value; the first
of equals wins. -/
def narrowest (box : Box) (inputs : List Nat) : Option Nat :=
  inputs.foldl (fun best input =>
    let width := (box.getD input .full).width
    if width = 0 then
      best
    else
      match best with
      | none => some input
      | some held => if width < (box.getD held .full).width then some input else best) none

def choose (problem : Problem) (allowed : Nat → Bool) (enclosed : Enclosed) : Choice :=
  let undecided := problem.roots.filter fun root => !(enclosed.bounds.interval root.gate).isTrue
  if undecided.isEmpty then
    .satisfied
  else
    match narrowest enclosed.box ((undecided.flatMap Root.inputs).filter allowed) with
    | some input => .split input
    | none => .stuck

def halves (box : Box) (input : Nat) : Box × Box :=
  let (lower, upper) := (box.getD input .full).split
  (box.setIfInBounds input lower, box.setIfInBounds input upper)

/-! ## Satisfaction -/

inductive Answer where
  | sat (box : Box)
  | unsat
  | unknown

/-- Look for a box that satisfies every root among the waiting ones, the first
of them first. -/
def explore (problem : Problem) (budget : Nat) (effort : Effort) (waiting : List Box) :
    Answer × Effort :=
  match waiting with
  | [] => (.unsat, effort)
  | box :: waiting =>
      match problem.propagate box with
      | .error _ => problem.explore budget effort.conflict waiting
      | .ok enclosed =>
          match problem.choose (fun _ => true) enclosed with
          | .satisfied => (.sat enclosed.box, effort)
          | .stuck => (.unknown, effort)
          | .split input =>
              if effort.decisions < budget then
                let (lower, upper) := halves enclosed.box input
                problem.explore budget effort.decision (lower :: upper :: waiting)
              else
                (.unknown, effort.decision)
termination_by 2 * (budget - effort.decisions) + waiting.length
decreasing_by
  · simp [Effort.conflict]
  · simp [Effort.decision]; omega

theorem decisions_le_explore (problem : Problem) (budget : Nat) (effort : Effort)
    (waiting : List Box) :
    effort.decisions ≤ (problem.explore budget effort waiting).2.decisions := by
  fun_induction explore problem budget effort waiting with
  | case1 => exact Nat.le_refl _
  | case2 effort box waiting left propagated induction => exact induction
  | case3 => exact Nat.le_refl _
  | case4 => exact Nat.le_refl _
  | case5 effort box waiting enclosed propagated input chosen within lower upper split induction =>
      exact Nat.le_trans (Nat.le_succ _) induction
  | case6 => exact Nat.le_succ _

def solve (problem : Problem) (budget : Nat) : Answer × Effort :=
  problem.explore budget .none [problem.circuit.wholeBox]

end Problem

end SymbolicSafety
