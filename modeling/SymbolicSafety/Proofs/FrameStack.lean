import SymbolicSafety.Proofs.Acceptance

namespace SymbolicSafety

/-! A solver is a stack of frames of assertions. The stack keeps the assertions
of each frame apart, while the solver keeps them all in one list, together with
the number of assertions below each open scope. Whatever is done with a new
solver, failures included, both hold the same assertions at the same depth, an
answer is remembered as long as the assertions stay as they are, and a check
does not fail. -/

/-! ## Stacks -/

/-- A frame on top and the frames below it, the innermost first. The base is
the last of them, and it is never dropped. -/
structure FrameStack where
  top : List Assertion
  below : List (List Assertion)

namespace FrameStack

def empty : FrameStack := ⟨[], []⟩

def depth (stack : FrameStack) : Nat := stack.below.length

def assertions (stack : FrameStack) : List Assertion :=
  (stack.top :: stack.below).reverse.flatten

def push (stack : FrameStack) : FrameStack := ⟨[], stack.top :: stack.below⟩

def assert (stack : FrameStack) (assertion : Assertion) : FrameStack :=
  { stack with top := stack.top ++ [assertion] }

def pop? : FrameStack → Nat → Option FrameStack
  | stack, 0 => some stack
  | ⟨_, []⟩, _ + 1 => none
  | ⟨_, frame :: rest⟩, count + 1 => pop? ⟨frame, rest⟩ count

def heights : List (List Assertion) → List Nat
  | [] => []
  | frame :: rest => heights rest ++ [(frame :: rest).reverse.flatten.length]

@[simp] theorem length_heights (frames : List (List Assertion)) :
    (heights frames).length = frames.length := by
  induction frames with
  | nil => rfl
  | cons frame rest induction => simp [heights, induction]

theorem le_of_mem_heights {frames : List (List Assertion)} {height : Nat}
    (member : height ∈ heights frames) : height ≤ frames.reverse.flatten.length := by
  induction frames with
  | nil => cases member
  | cons frame rest induction =>
      rcases List.mem_append.mp member with inner | last
      · have lower := induction inner
        simp only [List.reverse_cons, List.flatten_append, List.length_append]
        omega
      · exact Nat.le_of_eq (List.mem_singleton.mp last)

theorem assertions_cons (top frame : List Assertion) (rest : List (List Assertion)) :
    assertions ⟨top, frame :: rest⟩ = assertions ⟨frame, rest⟩ ++ top := by
  simp [assertions]

@[simp] theorem assertions_push (stack : FrameStack) :
    stack.push.assertions = stack.assertions := by
  simp [push, assertions]

@[simp] theorem assertions_assert (stack : FrameStack) (assertion : Assertion) :
    (stack.assert assertion).assertions = stack.assertions ++ [assertion] := by
  simp [assert, assertions]

theorem pop?_eq_none_iff (stack : FrameStack) (count : Nat) :
    stack.pop? count = none ↔ stack.depth < count := by
  induction count generalizing stack with
  | zero => simp [pop?]
  | succ count induction =>
      obtain ⟨top, _ | ⟨frame, rest⟩⟩ := stack
      · simp [pop?, depth]
      · rw [pop?, induction]
        simp [depth]

section Pop

variable {stack smaller : FrameStack} {count : Nat}

theorem heights_pop (popped : stack.pop? count = some smaller) :
    heights smaller.below = (heights stack.below).take (stack.depth - count) := by
  induction count generalizing stack with
  | zero =>
      obtain rfl := Option.some.inj popped
      exact (List.take_of_length_le (by simp [depth])).symm
  | succ count induction =>
      obtain ⟨top, _ | ⟨frame, rest⟩⟩ := stack
      · cases popped
      · rw [induction popped]
        have within : rest.length - count ≤ (heights rest).length := by simp
        simp [depth, heights, List.take_append_of_le_length within]

theorem assertions_pop (popped : stack.pop? (count + 1) = some smaller) :
    smaller.assertions =
      stack.assertions.take ((heights stack.below).getD (stack.depth - (count + 1)) 0) := by
  induction count generalizing stack with
  | zero =>
      obtain ⟨top, _ | ⟨frame, rest⟩⟩ := stack
      · cases popped
      · obtain rfl := Option.some.inj popped
        have last : (heights (frame :: rest)).getD rest.length 0 =
            (assertions ⟨frame, rest⟩).length := by
          simp [heights, assertions]
        simp only [depth, List.length_cons, Nat.add_sub_cancel, last, assertions_cons,
          List.take_left]
  | succ count induction =>
      obtain ⟨top, _ | ⟨frame, rest⟩⟩ := stack
      · cases popped
      · have deeper : ¬ (⟨frame, rest⟩ : FrameStack).depth < count + 1 := by
          rw [← pop?_eq_none_iff]
          simp [show pop? ⟨frame, rest⟩ (count + 1) = some smaller from popped]
        have enough : rest.length - (count + 1) < (heights rest).length := by
          rw [length_heights]
          simp only [depth] at deeper
          omega
        -- The saved number is one of those below the frame, so that the frame on top
        -- plays no part.
        have found : (heights (frame :: rest)).getD (rest.length - (count + 1)) 0 =
            (heights rest).getD (rest.length - (count + 1)) 0 := by
          simp only [heights, List.getD_eq_getElem?_getD, List.getElem?_append_left enough]
        have within : (heights rest).getD (rest.length - (count + 1)) 0 ≤
            (assertions ⟨frame, rest⟩).length := by
          have member : (heights rest).getD (rest.length - (count + 1)) 0 ∈ heights rest := by
            rw [← List.getElem_eq_getD (h := enough)]
            exact List.getElem_mem enough
          have lower := le_of_mem_heights member
          simp only [assertions, List.reverse_cons, List.flatten_append, List.length_append]
          omega
        rw [induction popped, depth, depth, List.length_cons, Nat.add_sub_add_right, found,
          assertions_cons, List.take_append_of_le_length within]

end Pop

end FrameStack

/-! ## Operations -/

inductive Operation where
  | add (formula : Formula)
  | addTo (marker : Marker) (formula : Formula)
  | push
  | pop (count : Nat)
  | reset
  | check
  | createMarker
  | createPattern (first second : Marker)
  | interpolant (pattern : Pattern)
  | model

inductive Fault where
  | refused (error : SolverError)
  | markerOverflow

namespace Fault

variable {α : Type}

def ofOutcome : Except SolverError α → Except Fault α
  | .ok value => .ok value
  | .error error => .error (.refused error)

@[simp] theorem ofOutcome_eq_ok_iff {outcome : Except SolverError α} {value : α} :
    ofOutcome outcome = .ok value ↔ outcome = .ok value := by
  cases outcome <;> simp [ofOutcome]

end Fault

structure Event where
  operation : Operation
  error : Option Fault

namespace Event

/-- The operation succeeded and touched the assertions or the scopes. Closing no
scopes does not count. -/
def changes : Event → Bool
  | ⟨.add _, none⟩ | ⟨.addTo .., none⟩ | ⟨.push, none⟩ | ⟨.reset, none⟩ => true
  | ⟨.pop count, none⟩ => count ≠ 0
  | _ => false

/-- There was a check, and nothing has changed since. -/
def Answered (events : List Event) : Prop :=
  ∃ earlier later, events = earlier ++ ⟨.check, none⟩ :: later ∧
    ∀ event ∈ later, event.changes = false

theorem answered_cons_iff (event : Event) (events : List Event) :
    Answered (event :: events) ↔ Answered events ∨
      (event = ⟨.check, none⟩ ∧ ∀ later ∈ events, later.changes = false) := by
  constructor
  · rintro ⟨earlier, later, split, unchanged⟩
    cases earlier with
    | nil =>
        obtain ⟨rfl, rfl⟩ := List.cons.inj split
        exact .inr ⟨rfl, unchanged⟩
    | cons first earlier =>
        obtain ⟨rfl, rfl⟩ := List.cons.inj split
        exact .inl ⟨earlier, later, rfl, unchanged⟩
  · rintro (⟨earlier, later, rfl, unchanged⟩ | ⟨rfl, unchanged⟩)
    · exact ⟨event :: earlier, later, rfl, unchanged⟩
    · exact ⟨[], events, rfl, unchanged⟩

end Event

namespace FrameStack

/-- What an event does to a stack. Assertions have to be accepted by the solver
before they count. -/
def follow (stack : FrameStack) : Event → FrameStack
  | ⟨.add formula, none⟩ => stack.assert ⟨none, formula⟩
  | ⟨.addTo marker formula, none⟩ => stack.assert ⟨some marker, formula⟩
  | ⟨.push, _⟩ => stack.push
  | ⟨.pop count, _⟩ => (stack.pop? count).getD stack
  | ⟨.reset, _⟩ => empty
  | _ => stack

def replay (stack : FrameStack) (events : List Event) : FrameStack := events.foldl follow stack

end FrameStack

namespace Solver

def after (solver : Solver) : Operation → Except Fault Solver
  | .add formula => Fault.ofOutcome (solver.add formula)
  | .addTo marker formula => Fault.ofOutcome (solver.addTo marker formula)
  | .push => .ok solver.push
  | .pop count => Fault.ofOutcome (solver.pop count)
  | .reset => .ok solver.reset
  | .check => Fault.ofOutcome do pure (← solver.check).2
  | .createMarker =>
      match solver.createMarker? with
      | some (_, next) => .ok next
      | none => .error .markerOverflow
  | .createPattern first second => Fault.ofOutcome do
      let _ ← solver.createPattern first second
      pure solver
  | .interpolant pattern => Fault.ofOutcome do pure (← solver.interpolant pattern).2
  | .model => Fault.ofOutcome do
      let _ ← solver.model
      pure solver

def fault? (solver : Solver) (operation : Operation) : Option Fault :=
  match solver.after operation with
  | .ok _ => none
  | .error error => some error

/-- The solver after an operation. One that fails returns no solver, so the one
before stands. -/
def perform (solver : Solver) (operation : Operation) : Solver :=
  match solver.after operation with
  | .ok next => next
  | .error _ => solver

def performAll (solver : Solver) (operations : List Operation) : Solver :=
  operations.foldl perform solver

def history (solver : Solver) : List Operation → List Event
  | [] => []
  | operation :: rest =>
      ⟨operation, solver.fault? operation⟩ :: (solver.perform operation).history rest

def Becomes (solver next : Solver) : Operation → Prop
  | .add formula => solver.assert none formula = .ok next
  | .addTo marker formula => solver.addTo marker formula = .ok next ∧
      solver.assert (some marker) formula = .ok next
  | .push => solver.push = next
  | .pop count => solver.pop count = .ok next
  | .reset => solver.reset = next
  | .check => ∃ status, solver.check = .ok (status, next)
  | .createMarker => solver.createMarker.2 = next
  | .interpolant pattern => ∃ interpolant, solver.interpolant pattern = .ok (interpolant, next)
  | .createPattern .. | .model => solver = next

theorem becomes_of_after {solver next : Solver} {operation : Operation}
    (succeeded : solver.after operation = .ok next) : solver.Becomes next operation := by
  cases operation with
  | add | pop => exact Fault.ofOutcome_eq_ok_iff.mp succeeded
  | push | reset => exact Except.ok.inj succeeded
  | createMarker =>
      simp only [after, createMarker?] at succeeded
      split at succeeded
      next made =>
        split at made
        · obtain rfl := Except.ok.inj succeeded
          exact congrArg Prod.snd (Option.some.inj made)
        · cases made
      next => cases succeeded
  | addTo marker formula =>
      have added := Fault.ofOutcome_eq_ok_iff.mp succeeded
      exact ⟨added, (addTo_eq_ok_iff.mp added).2⟩
  | check =>
      simp only [after, Fault.ofOutcome_eq_ok_iff, Outcome.bind_eq_ok_iff,
        Outcome.pure_eq_ok_iff] at succeeded
      obtain ⟨⟨status, checked⟩, answered, rfl⟩ := succeeded
      exact ⟨status, answered⟩
  | interpolant pattern =>
      simp only [after, Fault.ofOutcome_eq_ok_iff, Outcome.bind_eq_ok_iff,
        Outcome.pure_eq_ok_iff] at succeeded
      obtain ⟨⟨interpolant, answered⟩, given, rfl⟩ := succeeded
      exact ⟨interpolant, given⟩
  | createPattern | model =>
      simp only [after, Fault.ofOutcome_eq_ok_iff, Outcome.bind_eq_ok_iff,
        Outcome.pure_eq_ok_iff] at succeeded
      obtain ⟨-, -, same⟩ := succeeded
      exact same

theorem perform_cases (solver : Solver) (operation : Operation) :
    (solver.fault? operation = none ∧ solver.Becomes (solver.perform operation) operation) ∨
    ∃ error, solver.after operation = .error error ∧ solver.fault? operation = some error ∧
      solver.perform operation = solver := by
  unfold fault? perform
  cases ended : solver.after operation with
  | ok next => exact .inl ⟨rfl, becomes_of_after ended⟩
  | error error => exact .inr ⟨error, rfl, rfl, rfl⟩

/-! ## The same assertions -/

/-- The stack has the assertions of the solver, and its frames end where the
scopes of the solver begin. -/
structure Represents (solver : Solver) (stack : FrameStack) : Prop where
  assertions : solver.assertions = stack.assertions
  scopes : solver.scopes = FrameStack.heights stack.below

section Represents

variable {solver next : Solver} {stack : FrameStack}

theorem Represents.depth_eq (represents : solver.Represents stack) :
    solver.depth = stack.depth := by
  rw [depth, represents.scopes, FrameStack.length_heights, FrameStack.depth]

theorem Represents.congr (represents : solver.Represents stack)
    (assertions : next.assertions = solver.assertions) (scopes : next.scopes = solver.scopes) :
    next.Represents stack :=
  ⟨assertions.trans represents.assertions, scopes.trans represents.scopes⟩

theorem Represents.push (represents : solver.Represents stack) :
    solver.push.Represents stack.push where
  assertions := represents.assertions.trans (stack.assertions_push).symm
  scopes := by
    simp only [Solver.push, FrameStack.push, FrameStack.heights, represents.assertions,
      represents.scopes, FrameStack.assertions]

theorem Represents.assert (represents : solver.Represents stack) {marker : Option Marker}
    {formula : Formula} (asserted : solver.assert marker formula = .ok next) :
    next.Represents (stack.assert ⟨marker, formula⟩) := by
  obtain ⟨-, rfl⟩ := assert_eq_ok_iff.mp asserted
  exact ⟨by simp [represents.assertions], represents.scopes⟩

theorem Represents.pop_eq (represents : solver.Represents stack) (count : Nat) :
    (stack.depth < count ∧ solver.pop count = .error (.popUnderflow count stack.depth)) ∨
      ∃ next smaller, solver.pop count = .ok next ∧ stack.pop? count = some smaller ∧
        next.Represents smaller := by
  cases popped : stack.pop? count with
  | none =>
      have few := (stack.pop?_eq_none_iff count).mp popped
      exact .inl ⟨few, by rw [pop, represents.depth_eq, if_pos few]⟩
  | some smaller =>
      have enough : ¬ stack.depth < count := by
        rw [← stack.pop?_eq_none_iff, popped]
        simp
      refine .inr ?_
      cases count with
      | zero =>
          obtain rfl := Option.some.inj popped
          exact ⟨solver, stack, by simp [pop], rfl, represents⟩
      | succ count =>
          have left : solver.pop (count + 1) = .ok { solver with
              scopes := solver.scopes.take (stack.depth - (count + 1))
              assertions := solver.assertions.take
                (solver.scopes.getD (stack.depth - (count + 1)) 0)
              last := none } := by
            rw [pop, represents.depth_eq, if_neg enough, if_neg (Nat.succ_ne_zero count)]
          refine ⟨_, smaller, left, rfl, ?_, ?_⟩
          · rw [FrameStack.assertions_pop popped, ← represents.assertions, ← represents.scopes]
          · rw [FrameStack.heights_pop popped, ← represents.scopes]

theorem Represents.perform (represents : solver.Represents stack) (operation : Operation) :
    (solver.perform operation).Represents
      (stack.follow ⟨operation, solver.fault? operation⟩) := by
  rcases solver.perform_cases operation with ⟨none, becomes⟩ | ⟨error, failed, some, same⟩
  · rw [none]
    generalize solver.perform operation = next at becomes
    cases operation with
    | add formula => exact represents.assert becomes
    | addTo marker formula => exact represents.assert becomes.2
    | push =>
        obtain rfl := becomes
        exact represents.push
    | reset =>
        obtain rfl := becomes
        exact ⟨rfl, rfl⟩
    | pop count =>
        rcases represents.pop_eq count with ⟨-, failed⟩ | ⟨left, smaller, popped, dropped, result⟩
        · cases failed.symm.trans becomes
        · obtain rfl := Except.ok.inj (popped.symm.trans becomes)
          simpa only [FrameStack.follow, dropped, Option.getD_some] using result
    | check =>
        obtain ⟨status, answered⟩ := becomes
        obtain ⟨-, -, -, -, -, -, -, assertions, scopes, -⟩ := check_eq_ok answered
        exact represents.congr assertions scopes
    | interpolant pattern =>
        obtain ⟨interpolant, given⟩ := becomes
        obtain ⟨-, -, -, assertions, scopes, -⟩ := interpolant_eq_ok given
        exact represents.congr assertions scopes
    | createMarker | createPattern | model =>
        obtain rfl := becomes
        exact represents.congr rfl rfl
  · rw [some, same]
    cases operation with
    | pop count =>
        rcases represents.pop_eq count with ⟨few, -⟩ | ⟨next, smaller, popped, -⟩
        · rw [FrameStack.follow, (stack.pop?_eq_none_iff count).mpr few]
          exact represents
        · rw [after, popped] at failed
          cases failed
    | push | reset => cases failed
    | add | addTo | check | createMarker | createPattern | interpolant | model => exact represents

theorem Represents.performAll (represents : solver.Represents stack)
    (operations : List Operation) :
    (solver.performAll operations).Represents (stack.replay (solver.history operations)) := by
  induction operations generalizing solver stack with
  | nil => exact represents
  | cons operation rest induction => exact induction (represents.perform operation)

end Represents

/-! ## Remembered answers -/

theorem isSome_status_perform_iff (solver : Solver) (operation : Operation) :
    (solver.perform operation).status.isSome = true ↔
      (⟨operation, solver.fault? operation⟩ : Event) = ⟨.check, none⟩ ∨
        (solver.status.isSome = true ∧
          (⟨operation, solver.fault? operation⟩ : Event).changes = false) := by
  rcases solver.perform_cases operation with ⟨none, becomes⟩ | ⟨error, -, some, same⟩
  · rw [none]
    generalize solver.perform operation = next at becomes
    cases operation with
    | add formula =>
        obtain ⟨-, rfl⟩ := assert_eq_ok_iff.mp becomes
        simp [status, Event.changes]
    | addTo marker formula =>
        obtain ⟨-, rfl⟩ := assert_eq_ok_iff.mp becomes.2
        simp [status, Event.changes]
    | push | reset =>
        obtain rfl := becomes
        simp [status, push, reset, Event.changes]
    | pop count =>
        simp only [Becomes, pop] at becomes
        split at becomes
        · cases becomes
        · split at becomes
          next unchanged =>
            obtain rfl := Except.ok.inj becomes
            simp [Event.changes, unchanged]
          next changed =>
            obtain rfl := Except.ok.inj becomes
            simp [status, Event.changes, changed]
    | check =>
        obtain ⟨status, answered⟩ := becomes
        obtain ⟨problem, answer, effort, -, -, -, last, -⟩ := check_eq_ok answered
        simp [Solver.status, last]
    | interpolant pattern =>
        obtain ⟨interpolant, given⟩ := becomes
        obtain ⟨-, -, -, -, -, last, -⟩ := interpolant_eq_ok given
        simp [status, last, Event.changes]
    | createMarker | createPattern | model =>
        obtain rfl := becomes
        simp [status, createMarker, Event.changes]
  · rw [some, same]
    cases operation <;> simp [Event.changes]

theorem isSome_status_performAll_iff (solver : Solver) (operations : List Operation) :
    (solver.performAll operations).status.isSome = true ↔
      Event.Answered (solver.history operations) ∨
        (solver.status.isSome = true ∧
          ∀ event ∈ solver.history operations, event.changes = false) := by
  induction operations generalizing solver with
  | nil => simp [performAll, history, Event.Answered]
  | cons operation rest induction =>
      have later := induction (solver.perform operation)
      rw [isSome_status_perform_iff] at later
      rw [history, Event.answered_cons_iff, List.forall_mem_cons]
      refine later.trans ?_
      simp only [or_and_right, and_assoc, or_assoc]

/-! ## Checks do not fail -/

theorem Reachable.perform {solver : Solver} (reachable : solver.Reachable)
    (operation : Operation) : (solver.perform operation).Reachable := by
  rcases solver.perform_cases operation with ⟨-, becomes⟩ | ⟨error, -, -, same⟩
  · generalize solver.perform operation = next at becomes
    cases operation with
    | add formula => exact reachable.add becomes
    | addTo marker formula => exact reachable.addTo becomes.1
    | pop count => exact reachable.pop becomes
    | check => exact reachable.check becomes.choose_spec
    | interpolant pattern => exact reachable.interpolant becomes.choose_spec
    | push =>
        obtain rfl := becomes
        exact reachable.push
    | reset =>
        obtain rfl := becomes
        exact reachable.reset
    | createMarker =>
        obtain rfl := becomes
        exact reachable.createMarker
    | createPattern | model =>
        obtain rfl := becomes
        exact reachable
  · rw [same]
    exact reachable

theorem Reachable.performAll {solver : Solver} (reachable : solver.Reachable)
    (operations : List Operation) : (solver.performAll operations).Reachable := by
  induction operations generalizing solver with
  | nil => exact reachable
  | cons operation rest induction => exact induction (reachable.perform operation)

theorem Consistent.fault?_check {solver : Solver} (consistent : solver.Consistent) :
    solver.fault? .check = none := by
  obtain ⟨status, checked, answered⟩ := exists_check fun formula member =>
    ⟨(consistent.assertable formula member).primeFree,
      fun _ => (consistent.assertable formula member).exists_interval⟩
  have succeeded : solver.after .check = .ok checked := by
    rw [after, answered]
    rfl
  simp only [fault?, succeeded]

/-- After any operations on a new solver, the assertions and the depth are those
of the stack that the successful operations make. A scope too many cannot be
closed, there is an answer exactly if nothing has changed since a check, and a
check does not fail. An operation that fails changes nothing, because it returns a
fault in place of a solver. -/
theorem performAll_refines (id : Nat) (limits : Limits) (operations : List Operation) :
    let solver := (new id limits).performAll operations
    let events := (new id limits).history operations
    let stack := FrameStack.empty.replay events
    solver.assertions = stack.assertions ∧
      solver.formulas = stack.assertions.map Assertion.formula ∧
      solver.depth = stack.depth ∧
      (∀ count, solver.fault? (.pop count) =
        if stack.depth < count then some (.refused (.popUnderflow count stack.depth)) else none) ∧
      (∀ operation, solver.fault? operation ≠ none →
        (solver.perform operation).assertions = solver.assertions ∧
        (solver.perform operation).depth = solver.depth ∧
        (solver.perform operation).status = solver.status) ∧
      (solver.status.isSome = true ↔ Event.Answered events) ∧
      solver.fault? .check = none := by
  intro solver events stack
  have start : (new id limits).Represents .empty := ⟨rfl, rfl⟩
  have represents : solver.Represents stack := start.performAll operations
  have reachable : solver.Reachable := (Reachable.new id limits).performAll operations
  refine ⟨represents.assertions, congrArg (List.map Assertion.formula) represents.assertions,
    represents.depth_eq, fun count => ?_, fun operation fails => ?_, ?_,
    reachable.consistent.fault?_check⟩
  · rcases represents.pop_eq count with ⟨few, failed⟩ | ⟨next, smaller, popped, dropped, -⟩
    · rw [if_pos few]
      simp [fault?, after, failed, Fault.ofOutcome]
    · have enough : ¬ stack.depth < count := by
        rw [← stack.pop?_eq_none_iff, dropped]
        simp
      rw [if_neg enough]
      simp [fault?, after, popped, Fault.ofOutcome]
  · rcases solver.perform_cases operation with ⟨none, -⟩ | ⟨-, -, -, same⟩
    · exact absurd none fails
    · rw [same]
      exact ⟨rfl, rfl, rfl⟩
  · refine (isSome_status_performAll_iff _ operations).trans ?_
    simp [new, status, events]

end Solver

end SymbolicSafety
