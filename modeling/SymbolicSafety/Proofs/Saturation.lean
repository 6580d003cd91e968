import SymbolicSafety.Proofs.Decisiveness
import SymbolicSafety.Proofs.ElementarySystems

namespace SymbolicSafety

/-! Checks of systems without deadlocks. The states from which a bad state is no
more than some steps away are a chain of growing sets. It stops growing before
there are as many steps as states. At that depth no image contains a state from
which the trace leads into a bad one, so the search does not have to go deeper. -/

theorem Domain.Proper.size?_eq {domain : Domain} (proper : domain.Proper) :
    domain.size? = some domain.span := by
  cases domain with
  | bool => rfl
  | int => exact absurd proper id
  | range least greatest =>
      have ordered : least.toInt ≤ greatest.toInt := Int64.le_iff_toInt_le.mp proper
      have lower : -2 ^ 63 ≤ least.toInt := least.le_toInt
      have upper : greatest.toInt ≤ 2 ^ 63 - 1 := greatest.toInt_le
      simp only [size?, span, Option.some.injEq]
      rw [Int.emod_eq_of_lt (by omega) (by omega)]
      omega

namespace Checker

variable {State : Type} {checker : Checker State}

/-! ## Numbers of states -/

def vars (checker : Checker State) : List Variable :=
  ([checker.initial, checker.action.formula, checker.property].flatMap fun formula =>
    formula.symbols.keys.map Symbol.var).eraseDups

/-- How many states there are, which is the product of the domain sizes. -/
def stateCount (checker : Checker State) : Nat :=
  checker.vars.foldl (fun product var => product * var.domain.size?.getD 0) 1

theorem mem_vars_iff (var : Variable) : var ∈ checker.vars ↔ checker.Concerns var := by
  simp only [vars, List.mem_eraseDups, List.mem_flatMap, List.mem_map,
    Formula.mem_symbols_iff, Concerns]

private theorem foldl_span_eq (product : Nat) {vars : List Variable}
    (proper : ∀ var ∈ vars, var.domain.Proper) :
    (vars.map Symbol.current).foldl (fun product symbol => product * symbol.domain.span) product =
      vars.foldl (fun product var => product * var.domain.size?.getD 0) product := by
  induction vars generalizing product with
  | nil => rfl
  | cons var rest induction =>
      obtain ⟨first, others⟩ := List.forall_mem_cons.mp proper
      simp only [List.map_cons, List.foldl_cons, induction _ others, first.size?_eq,
        Option.getD_some]
      rfl

theorem exists_states (wellFormed : checker.WellFormed) :
    ∃ states : List checker.SystemState, states.length = checker.stateCount ∧
      ∀ state : checker.SystemState, ∃ listed ∈ states, listed.Resembles state := by
  have covers (var : Variable) (concerned : checker.Concerns var) :
      ∃ symbol ∈ checker.vars.map Symbol.current, symbol.var = var :=
    ⟨.current var, List.mem_map_of_mem ((mem_vars_iff var).mpr concerned), rfl⟩
  obtain ⟨states, length, all⟩ := SystemState.exists_listing wellFormed.toWellTyped covers
  refine ⟨states, ?_, all⟩
  rw [length, stateCount, foldl_span_eq 1]
  intro var member
  exact wellFormed.proper var ((mem_vars_iff var).mp member)

/-! ## States near bad ones -/

namespace SystemState

variable {state other next : checker.SystemState}

/-- A bad state is no more than some steps away. -/
def BadWithin : Nat → checker.SystemState → Prop
  | 0, state => state.Violates
  | steps + 1, state => state.Violates ∨ ∃ next, state.Step next ∧ BadWithin steps next

theorem BadWithin.succ {steps : Nat} (bad : state.BadWithin steps) :
    state.BadWithin (steps + 1) := by
  induction steps generalizing state with
  | zero => exact .inl bad
  | succ steps induction =>
      rcases bad with violates | ⟨next, step, bad⟩
      · exact .inl violates
      · exact .inr ⟨next, step, induction bad⟩

theorem badWithin_of_path {path : Nat → checker.SystemState} {length place : Nat}
    (isPath : checker.IsPath path length) (le : place ≤ length)
    (violates : (path place).Violates) : (path 0).BadWithin length := by
  induction length generalizing path place with
  | zero =>
      obtain rfl := Nat.le_zero.mp le
      exact violates
  | succ length induction =>
      cases place with
      | zero => exact .inl violates
      | succ place =>
          refine .inr ⟨path 1, isPath 0 (Nat.zero_lt_succ _), ?_⟩
          exact induction (fun earlier less => isPath (earlier + 1) (Nat.succ_lt_succ less))
            (Nat.le_of_succ_le_succ le) violates

theorem BadWithin.exists_path (total : ∀ state : checker.SystemState, ∃ next, state.Step next)
    {steps : Nat} (bad : state.BadWithin steps) :
    ∃ path : Nat → checker.SystemState, path 0 = state ∧ checker.IsPath path steps ∧
      ∃ place ≤ steps, (path place).Violates := by
  induction steps generalizing state with
  | zero => exact ⟨fun _ => state, rfl, by simp [IsPath], 0, Nat.le_refl 0, bad⟩
  | succ steps induction =>
      rcases bad with violates | ⟨next, step, bad⟩
      · obtain ⟨path, rfl, isPath⟩ := @exists_path_of_live _ checker (fun _ => True)
          (fun _ _ _ _ => trivial) (fun state _ => total state) (steps + 1) state trivial
        exact ⟨path, rfl, isPath, 0, Nat.zero_le _, violates⟩
      · obtain ⟨path, rfl, isPath, place, le, violates⟩ := induction bad
        obtain ⟨longer, starts, continues, isLonger⟩ := isPath.cons step
        exact ⟨longer, starts, isLonger, place + 1, Nat.succ_le_succ le,
          (continues place).symm ▸ violates⟩

theorem Resembles.step (resembles : state.Resembles other) (step : state.Step next) :
    other.Step next := by
  obtain ⟨reached, unfolded, valuation, advanced, unfolds, starts, rest⟩ := step
  refine ⟨reached, unfolded, valuation, advanced, unfolds, fun var concerned => ?_, rest⟩
  rw [starts var concerned, resembles var concerned]

theorem Resembles.badWithin_iff (wellFormed : checker.WellFormed)
    (resembles : state.Resembles other) (steps : Nat) :
    state.BadWithin steps ↔ other.BadWithin steps := by
  have violates {state other : checker.SystemState} (resembles : state.Resembles other)
      (violates : state.Violates) : other.Violates :=
    violates.of_agree wellFormed.propertyPlain fun symbol mentions =>
      resembles symbol.var ⟨_, by simp, symbol, mentions, rfl⟩
  have half {state other : checker.SystemState} (resembles : state.Resembles other)
      (bad : state.BadWithin steps) : other.BadWithin steps := by
    cases steps with
    | zero => exact violates resembles bad
    | succ steps =>
        rcases bad with here | ⟨next, step, bad⟩
        · exact .inl (violates resembles here)
        · exact .inr ⟨next, resembles.step step, bad⟩
  exact ⟨half resembles, half resembles.symm⟩

end SystemState

/-! ## The chain stops growing -/

variable (checker) in
/-- No more states are near bad ones if one more step is allowed. -/
def Saturates (steps : Nat) : Prop :=
  ∀ state : checker.SystemState, state.BadWithin (steps + 1) → state.BadWithin steps

theorem exists_saturates (wellFormed : checker.WellFormed) {states : List checker.SystemState}
    {steps : Nat} (remain : checker.Remain states (·.BadWithin steps)) :
    ∃ more ≤ states.length, checker.Saturates (steps + more) := by
  induction found : states.length using Nat.strongRecOn generalizing states steps with
  | ind length induction =>
      subst found
      by_cases saturates : checker.Saturates steps
      · exact ⟨0, Nat.zero_le _, saturates⟩
      · simp only [Saturates, Classical.not_forall] at saturates
        obtain ⟨state, bad, outside⟩ := saturates
        obtain ⟨fewer, less, remainFewer⟩ := remain.grow (fun _ near => near.succ)
          (fun _ _ resembles => resembles.badWithin_iff wellFormed (steps + 1)) bad outside
        obtain ⟨more, le, saturates⟩ := induction _ less remainFewer rfl
        refine ⟨more + 1, by omega, ?_⟩
        rwa [Nat.add_right_comm, Nat.add_assoc] at saturates

theorem exists_saturates_lt (wellFormed : checker.WellFormed) :
    ∃ steps < checker.stateCount, checker.Saturates steps := by
  obtain ⟨states, length, all⟩ := exists_states wellFormed
  rw [← length]
  by_cases exist : ∃ state : checker.SystemState, state.Violates
  · obtain ⟨state, violates⟩ := exist
    have remain : checker.Remain states fun _ => False := fun state _ => all state
    have ⟨fewer, less, remainFewer⟩ : ∃ fewer : List checker.SystemState,
        fewer.length < states.length ∧ checker.Remain fewer (·.BadWithin 0) :=
      remain.grow (fun _ => False.elim)
        (fun _ _ resembles => resembles.badWithin_iff wellFormed 0) violates id
    obtain ⟨more, le, saturates⟩ := exists_saturates wellFormed remainFewer
    exact ⟨0 + more, by omega, saturates⟩
  · -- Without bad states there is nothing to begin with, but there is a state.
    obtain ⟨start⟩ := exists_state wellFormed.toWellTyped
    obtain ⟨listed, member, -⟩ := all start
    refine ⟨0, List.length_pos_of_mem member, fun state near => ?_⟩
    rcases near with violates | ⟨next, -, violates⟩
    · exact violates
    · exact absurd ⟨next, violates⟩ exist

/-- Where the chain is complete, a state from which the trace leads into a bad
state has a shorter way there, which the images avoid. -/
theorem shields_avoids (wellFormed : checker.WellFormed) {trace : Trace}
    (unrolls : checker.Unrolls trace) (about : checker.StateFormula checker.initial)
    (cumulative : checker.cumulative = true)
    (total : ∀ state : checker.SystemState, ∃ next, state.Step next) {steps : Nat}
    (saturates : checker.Saturates steps) (length : trace.steps.length = steps + 1) :
    checker.Shields trace (checker.Avoids (steps + 1)) := by
  have positive : 0 < trace.steps.length := by omega
  refine ⟨fun image derives => ?_, fun new image aboutNew _ derives => ?_,
    fun new aboutNew avoids assignment legal holdsHead holdsTail => ?_⟩
  · exact length ▸ (derives.excludes wellFormed unrolls positive about).avoids
  · exact length ▸ (derives.excludes wellFormed unrolls positive aboutNew).avoids
  · obtain ⟨satisfies, isPath, place, less, violates⟩ :=
      legal.path_of_holds wellFormed aboutNew unrolls positive ⟨holdsHead, holdsTail⟩
    rw [length] at isPath less
    have near := saturates _ (SystemState.badWithin_of_path isPath less violates)
    obtain ⟨path, starts, isShorter, place', le, violates'⟩ := near.exists_path total
    exact avoids cumulative path (starts ▸ satisfies) isShorter place' le violates'

/-- A check that can start ends with a verdict on a safe system in which every
state has a successor, if it looks for all bad states on the way and may take as
many steps as there are states, as long as it does not run out of versions. Unless
it is interrupted, it proves the system safe with no more steps than that. -/
theorem safe_within_state_count (wellFormed : checker.WellFormed)
    (free : checker.initial.PrimeFree) (cumulative : checker.cumulative = true)
    {surroundings : Surroundings} (ordinary : surroundings.model = Solver.model) {solver : Solver}
    (idle : solver.assertions = []) (starts : checker.CanStart surroundings solver)
    (total : ∀ state : checker.SystemState, ∃ next, state.Step next)
    (bounded : checker.stateCount ≤ checker.bound.getD depthLimit)
    (versions : checker.Fits checker.stateCount ∨
      (checker.check surroundings solver).1 ≠ .error .versionOverflow)
    (safe : ∀ state : checker.SystemState, state.Reachable → ¬ state.Violates) :
    ∃ result, (checker.check surroundings solver).1 = .ok result ∧
      ((∀ reason ∈ [UnknownReason.inconclusive, .timeout, .cancelled],
          result.verdict ≠ .unknown reason) →
        ∃ proof, result.verdict = .safe proof ∧ proof.depth ≤ checker.stateCount) := by
  obtain ⟨steps, few, saturates⟩ := exists_saturates_lt wellFormed
  have decisive : checker.Decisive (steps + 1) := fun trace unrolls length =>
    ⟨_, shields_avoids wellFormed unrolls (.initial wellFormed free) cumulative total saturates
      length⟩
  have versionsFew : checker.Fits (steps + 1) ∨
      (checker.check surroundings solver).1 ≠ .error .versionOverflow :=
    versions.imp_left fun fits => fits.mono few
  obtain ⟨result, checked, converges⟩ := safe_of_decisive wellFormed idle
    (Nat.zero_lt_succ steps) (Nat.le_trans few bounded) decisive starts free ordinary versionsFew
    safe
  refine ⟨result, checked, fun uninterrupted => ?_⟩
  obtain ⟨proof, isSafe, shallow⟩ := converges uninterrupted
  exact ⟨proof, isSafe, Nat.le_trans shallow few⟩

/-! ## A system without deadlocks -/

def stage : Variable := ⟨0, "stage", .range 0 2⟩

/-- A number up to two that never grows. It starts at one and is not to become
two. -/
def shrinking : Checker Valuation where
  initial := .binary .eq (.version stage 0) (.int 1)
  base := .all 0
  action := ⟨.binary .leq (.primed stage) (.current stage), (Indexing.all 0).set stage 1⟩
  property := .binary .lt (.current stage) (.int 2)
  reconstruct := id
  direction := .backward
  bound := some 3
  cumulative := true
  timeout := none
  bounded := by simp

private theorem elementary_shrinking : shrinking.Elementary := by decide

private theorem wellFormed_shrinking : shrinking.WellFormed :=
  elementary_shrinking.wellFormed_of_arithmeticFree (by decide)

private theorem step_shrinking_iff {before after : shrinking.SystemState} :
    before.Step after ↔ (Formula.binary .leq (.version stage 1) (.version stage 0)).Holds
      (before.between after) :=
  SystemState.step_iff_holds_between wellFormed_shrinking (by decide) rfl (by decide)

private theorem total_shrinking (state : shrinking.SystemState) : ∃ next, state.Step next := by
  obtain ⟨word, same⟩ : ∃ word, state.value stage = .int word := by
    have contains := state.inDomain stage (by decide)
    cases value : state.value stage with
    | int word => exact ⟨word, rfl⟩
    | bool holds =>
        rw [value] at contains
        cases contains
  have bound (index : UInt32) (known : index = 0 ∨ index = 1) :
      ((state.between state).valuation [.binary .leq (.version stage 1) (.version stage 0)]).get?
        (.version stage index) = some (.int word) := by
    rw [Assignment.get?_valuation _ (List.mem_singleton_self _)
      (by rcases known with rfl | rfl <;> simp [Formula.version]), SystemState.between, ite_self,
      same]
  refine ⟨state, step_shrinking_iff.mpr ((Formula.evaluate_eq_ok_iff ..).mpr
    (.binary (by decide) (.symbol (bound 1 (.inr rfl))) (.symbol (bound 0 (.inl rfl))) ?_))⟩
  simp [BinaryOp.result?]

theorem safe_within_state_count_shrinking :
    shrinking.WellFormed ∧ shrinking.initial.PrimeFree ∧ shrinking.direction = .backward ∧
      shrinking.cumulative = true ∧
      (∀ state : shrinking.SystemState, ∃ next, state.Step next) ∧
      shrinking.stateCount = 3 ∧ shrinking.Fits shrinking.stateCount ∧
      (∀ state : shrinking.SystemState, state.Reachable → ¬ state.Violates) ∧
      ∃ result proof, (shrinking.check {} (.new 0 .default)).1 = .ok result ∧
        result.verdict = .safe proof ∧ 0 < proof.depth ∧
        proof.depth ≤ shrinking.stateCount := by
  have wellFormed := wellFormed_shrinking
  have free := elementary_shrinking.initialPrimes
  have count : shrinking.stateCount = 3 := by decide +kernel
  have fits : shrinking.Fits shrinking.stateCount :=
    fits_of_entries (by rw [count]; decide) rfl (by decide)
  obtain ⟨result, proof, checked, safe, deep⟩ :
      ∃ result proof, (shrinking.check {} (.new 0 .default)).1 = .ok result ∧
        result.verdict = .safe proof ∧ decide (0 < proof.depth) = true :=
    SafetyResult.exists_of_any (by decide +kernel) Verdict.proof?_eq_some_iff
  have unviolated := unviolated_of_safe wellFormed rfl checked safe
  obtain ⟨_, same, converges⟩ := @safe_within_state_count _ _ wellFormed free rfl {} rfl
    (.new 0 .default) rfl ⟨by decide, by decide⟩ total_shrinking (Nat.le_of_eq count) (.inl fits)
    unviolated
  obtain rfl := Except.ok.inj (checked.symm.trans same)
  obtain ⟨proof', safe', shallow⟩ := converges (by simp [safe])
  obtain rfl := Verdict.safe.inj (safe.symm.trans safe')
  exact ⟨wellFormed, free, rfl, rfl, total_shrinking, count, fits, unviolated, result, proof,
    checked, safe, of_decide_eq_true deep, shallow⟩

end Checker

end SymbolicSafety
