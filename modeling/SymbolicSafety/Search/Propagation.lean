import SymbolicSafety.Circuit.Problem

namespace SymbolicSafety

/-! Narrowing a box without losing solutions. The bounds of all gates are
computed from the box; then the demand that every root is true is pushed down
the circuit, gate by gate, until it reaches the inputs. -/

structure Narrowing where
  bounds : Bounds
  box : Box
  changed : Bool

/-- Narrowing fails when some demand cannot be met within the bounds. What has
been narrowed by then stays narrowed. -/
abbrev Narrowed := Except Narrowing Narrowing

abbrev Narrow := Nat → Interval → Narrowing → Narrowed

namespace Narrowing

def interval (state : Narrowing) (gate : Nat) : Interval := state.bounds.interval gate

def restrict (state : Narrowing) (index : Nat) (target : Interval) : Narrowed :=
  let held := state.box.getD index .full
  match held.intersect? target with
  | none => .error state
  | some narrowed =>
      if narrowed = held then
        .ok state
      else
        .ok { state with box := state.box.setIfInBounds index narrowed, changed := true }

end Narrowing

namespace Gate

variable (narrow : Narrow)

def exclude (gate : Nat) (value : Int) (state : Narrowing) : Narrowed :=
  let held := state.interval gate
  if held = .point value then .error state
  else if held.lo = value then narrow gate ⟨value + 1, held.hi⟩ state
  else if held.hi = value then narrow gate ⟨held.lo, value - 1⟩ state
  else .ok state

def narrowComparison (comparison : Comparison) (left right : Nat) (state : Narrowing) : Narrowed :=
  let first := state.interval left
  let second := state.interval right
  match comparison with
  | .eq => do
      let state ← narrow left second state
      narrow right (state.interval left) state
  | .neq => do
      let state ← if second.isPoint then exclude narrow left second.lo state else .ok state
      let first := state.interval left
      if first.isPoint then exclude narrow right first.lo state else .ok state
  | .lt => do
      let state ← narrow left ⟨Wide.least, Wide.sub second.hi 1⟩ state
      narrow right ⟨Wide.add first.lo 1, Wide.greatest⟩ state
  | .leq => do
      let state ← narrow left ⟨Wide.least, second.hi⟩ state
      narrow right ⟨first.lo, Wide.greatest⟩ state

def narrowOpposite (comparison : Comparison) (left right : Nat) (state : Narrowing) : Narrowed :=
  match comparison with
  | .eq => narrowComparison narrow .neq left right state
  | .neq => narrowComparison narrow .eq left right state
  | .lt => narrowComparison narrow .leq right left state
  | .leq => narrowComparison narrow .lt right left state

def narrowAll (target : Interval) (gates : List Nat) (state : Narrowing) : Narrowed :=
  gates.foldlM (fun state gate => narrow gate target state) state

/-- Narrow a conjunction, whose neutral value is true and whose absorbing value
is false, or a disjunction, where it is the other way round. If the neutral
value is demanded, every operand must have it. If the absorbing value is
demanded, some operand must have it, and the last one that still can does. -/
def narrowJunction (neutral absorbing : Interval) (operands : List Nat) (target : Interval)
    (state : Narrowing) : Narrowed :=
  if target = neutral then
    narrowAll narrow neutral operands state
  else if target = absorbing then
    if operands.any fun operand => state.interval operand = absorbing then
      .ok state
    else
      match operands.filter fun operand => state.interval operand ≠ neutral with
      | [] => .error state
      | [operand] => narrow operand absorbing state
      | _ => .ok state
  else
    .ok state

/-- Narrow the operands of a sum one after another: each must make up the
difference between the target and the other operands. -/
def narrowSum (target : Interval) (before after : List Nat) (state : Narrowing) : Narrowed :=
  match after with
  | [] => .ok state
  | operand :: after => do
      let others := state.bounds.sum (before ++ after)
      let lo := Wide.sub target.lo others.hi
      let hi := Wide.sub target.hi others.lo
      if hi < lo then
        .error state
      else
        let state ← narrow operand ⟨lo, hi⟩ state
        narrowSum target (before ++ [operand]) after state

def narrowProduct (target : Interval) (operands : List Nat) (state : Narrowing) : Narrowed :=
  match operands.filter fun operand => !(state.interval operand).isPoint with
  | [operand] =>
      let factor := state.bounds.product (operands.filter fun other => other ≠ operand)
      match target.quotients? factor.lo with
      | none => .ok state
      | some (lo, hi) => if hi < lo then .error state else narrow operand ⟨lo, hi⟩ state
  | _ => .ok state

/-- Narrow a conditional: the branch that is taken must meet the target, and a
branch that cannot meet it is not taken. -/
def narrowChoice (target : Interval) (condition consequent alternative : Nat)
    (state : Narrowing) : Narrowed :=
  if (state.interval condition).isTrue then
    narrow consequent target state
  else if (state.interval condition).isFalse then
    narrow alternative target state
  else if ((state.interval consequent).intersect? target).isNone then do
    let state ← narrow condition .false state
    narrow alternative target state
  else if ((state.interval alternative).intersect? target).isNone then do
    let state ← narrow condition .true state
    narrow consequent target state
  else
    .ok state

def narrowOperands (gate : Gate) (target : Interval) (state : Narrowing) : Narrowed :=
  match gate with
  | .constant _ => .ok state
  | .input index => state.restrict index target
  | .not operand => narrow operand target.not state
  | .and operands => narrowJunction narrow .true .false operands target state
  | .or operands => narrowJunction narrow .false .true operands target state
  | .compare comparison left right =>
      if target.isTrue then narrowComparison narrow comparison left right state
      else if target.isFalse then narrowOpposite narrow comparison left right state
      else .ok state
  | .sum operands => narrowSum narrow target [] operands state
  | .product operands => narrowProduct narrow target operands state
  | .neg operand => narrow operand target.neg state
  | .div .. | .mod .. => .ok state
  | .choose condition consequent alternative =>
      narrowChoice narrow target condition consequent alternative state

end Gate

namespace Circuit

/-- Make a gate lie in `target`. A gate only reads gates that come before it,
so the demands travel towards the inputs. -/
def narrow (circuit : Circuit) (gate : Nat) (target : Interval) (state : Narrowing) : Narrowed :=
  match (state.interval gate).intersect? target with
  | none => .error state
  | some target =>
      (circuit.gates.getD gate (.constant 0)).narrowOperands
        (fun operand target state =>
          if operand < gate then circuit.narrow operand target state else .ok state)
        target { state with bounds := state.bounds.setIfInBounds gate target }
termination_by gate

end Circuit

namespace Problem

structure Enclosed where
  box : Box
  bounds : Bounds

def narrowRoots (problem : Problem) (state : Narrowing) : Narrowed :=
  problem.roots.foldlM (fun state root => problem.circuit.narrow root.gate .true state) state

/-- Narrow the box until nothing changes, at most `rounds` times. A conflict
leaves the box as far as it has been narrowed. -/
def narrowRounds (problem : Problem) : Nat → Box → Except Box Enclosed
  | 0, box =>
      let bounds := problem.circuit.enclose box
      if problem.refuted bounds then .error box else .ok ⟨box, bounds⟩
  | rounds + 1, box =>
      let bounds := problem.circuit.enclose box
      if problem.refuted bounds then
        .error box
      else
        match problem.narrowRoots ⟨bounds, box, false⟩ with
        | .error state => .error state.box
        | .ok state =>
            if state.changed then problem.narrowRounds rounds state.box else .ok ⟨box, bounds⟩

def maxRounds : Nat := 32

def propagate (problem : Problem) (box : Box) : Except Box Enclosed :=
  problem.narrowRounds maxRounds box

end Problem

end SymbolicSafety
