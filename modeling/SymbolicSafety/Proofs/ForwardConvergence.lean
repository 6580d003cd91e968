import SymbolicSafety.Proofs.Decisiveness
import SymbolicSafety.Proofs.ElementarySystems

namespace SymbolicSafety

/-! Forward checks of safe systems. From two steps on, the images of a trace
forget only variables that neither the steps nor the property read. States that
differ in nothing else have the same future. So every state of an image has the
future of a reachable state, and the search does not have to go deeper. -/

namespace Checker

variable {State : Type} {checker : Checker State} {reached : Indexing} {step : Formula}
  {trace : Trace} {start image : Formula} {assignment : Assignment}

/-! ## States with the same future -/

variable (checker) in
/-- The future of a state depends on the variable: a step reads it, or no step
changes it and the property reads it. -/
def Influences (var : Variable) : Prop :=
  (∃ step, checker.action.formula.unfoldAt? checker.base = some step ∧
    step.Mentions (.version var (checker.base.get var))) ∨
  checker.action.delta.get var = 0 ∧
    ∃ symbol, checker.property.Mentions symbol ∧ symbol.var = var

theorem Influences.concerns (regular : checker.action.Regular) {var : Variable}
    (influences : checker.Influences var) : checker.Concerns var := by
  rcases influences with ⟨step, unfolded, mentions⟩ | ⟨-, symbol, mentions, rfl⟩
  · exact (mentions_of_step regular unfolded mentions).1
  · exact ⟨_, by simp, symbol, mentions, rfl⟩

namespace SystemState

def Alike (state other : checker.SystemState) : Prop :=
  ∀ var, checker.Influences var → state.value var = other.value var

variable {state other next : checker.SystemState}

private def rebased (other : checker.SystemState) (assignment : Assignment) : Assignment :=
  fun symbol =>
    if symbol = .version symbol.var (checker.base.get symbol.var) then other.value symbol.var
    else assignment symbol

private theorem legal_rebased (legal : checker.Legal assignment) :
    checker.Legal (other.rebased assignment) := by
  intro symbol concerned
  simp only [rebased]
  split
  next => exact other.inDomain symbol.var concerned
  next => exact legal symbol concerned

section Steps

variable (wellFormed : checker.WellFormed)
  (advanced : checker.base.add? checker.action.delta = some reached)
  (unfolded : checker.action.formula.unfoldAt? checker.base = some step)
  (describes : checker.Describes assignment state)

include wellFormed unfolded describes in
private theorem Alike.holds_rebased (alike : state.Alike other) (holds : step.Holds assignment) :
    step.Holds (other.rebased assignment) := by
  refine (Formula.hasTruth_congr fun symbol mentions => ?_).mpr holds
  simp only [rebased]
  split
  next base =>
    rw [base] at mentions
    have concerned := (mentions_of_step wellFormed.action.regular unfolded mentions).1
    rw [← alike symbol.var (.inl ⟨step, unfolded, mentions⟩), base]
    exact (describes symbol.var concerned).symm
  next => rfl

include advanced describes in
private theorem rebased_reached {var : Variable} (concerned : checker.Concerns var)
    (still : checker.action.delta.get var = 0 → state.value var = other.value var) :
    other.rebased assignment (.version var (reached.get var)) =
      assignment (.version var (reached.get var)) := by
  rw [rebased]
  split
  next same =>
    have index : reached.get var = checker.base.get var := (Symbol.version.inj same).2
    have number := Indexing.get_add advanced var
    rw [index] at number ⊢
    rw [describes var concerned]
    have unchanged : (checker.action.delta.get var).toNat = 0 := by omega
    exact (still (UInt32.toNat_inj.mp unchanged)).symm
  next => rfl

include wellFormed advanced unfolded

theorem Alike.exists_step (alike : state.Alike other) (steps : state.Step next) :
    ∃ follower, other.Step follower ∧ next.Alike follower ∧
      (next.Violates → follower.Violates) := by
  obtain ⟨assignment, legal, describes, describesNext, holds⟩ :=
    (step_iff wellFormed advanced unfolded).mp steps
  have legalRebased : checker.Legal (other.rebased assignment) := legal_rebased legal
  let follower := (legalRebased.later 1).state
  have agree {var : Variable} (concerned : checker.Concerns var)
      (still : checker.action.delta.get var = 0 → state.value var = other.value var) :
      next.value var = follower.value var := by
    have after :
        follower.value var = other.rebased assignment (.version var (reached.get var)) := by
      rw [← shift_base advanced]
      rfl
    rw [after, rebased_reached advanced describes concerned still, ← describesNext var concerned,
      later, shift_base advanced]
  refine ⟨follower, (step_iff wellFormed advanced unfolded).mpr ⟨_, legalRebased,
    fun var _ => by simp [rebased, Symbol.var], (legalRebased.later 1).describes,
    alike.holds_rebased wellFormed unfolded describes holds⟩, fun var influences => ?_,
    fun violates => ?_⟩
  · exact agree (influences.concerns wellFormed.action.regular) fun _ => alike var influences
  · refine violates.of_agree wellFormed.propertyPlain fun symbol mentions => ?_
    exact agree ⟨_, by simp, symbol, mentions, rfl⟩ fun still =>
      alike symbol.var (.inr ⟨still, symbol, mentions, rfl⟩)

end Steps

end SystemState

/-! ## Images of reachable states -/

variable (checker) in
/-- All states of the image have the future of a reachable state. -/
def Tracks (image : Formula) : Prop :=
  ∀ state : checker.SystemState, state.Satisfies image →
    ∃ other : checker.SystemState, other.Reachable ∧ state.Alike other

theorem tracks_initial : checker.Tracks checker.initial :=
  fun state satisfies => ⟨state, SystemState.reachable_of_initial satisfies, fun _ _ => rfl⟩

theorem Tracks.not_violates_of_path (wellFormed : checker.WellFormed)
    (safe : ∀ state : checker.SystemState, state.Reachable → ¬ state.Violates)
    (advanced : checker.base.add? checker.action.delta = some reached)
    (unfolded : checker.action.formula.unfoldAt? checker.base = some step)
    (tracks : checker.Tracks start) {path : Nat → checker.SystemState}
    (satisfies : (path 0).Satisfies start) {length : Nat} (isPath : checker.IsPath path length)
    {place : Nat} (less : place < length) : ¬ (path (place + 1)).Violates := by
  have tracked : ∃ other : checker.SystemState, other.Reachable ∧ (path place).Alike other := by
    induction place with
    | zero => exact tracks (path 0) satisfies
    | succ place induction =>
        obtain ⟨other, reachable, alike⟩ := induction (Nat.lt_of_succ_lt less)
        obtain ⟨follower, steps, alikeNext, -⟩ := alike.exists_step wellFormed advanced unfolded
          (isPath place (Nat.lt_of_succ_lt less))
        exact ⟨follower, reachable.step steps, alikeNext⟩
  obtain ⟨other, reachable, alike⟩ := tracked
  obtain ⟨follower, steps, -, violates⟩ :=
    alike.exists_step wellFormed advanced unfolded (isPath place less)
  exact fun bad => safe follower (reachable.step steps) (violates bad)

section Traces

variable (wellFormed : checker.WellFormed) (unrolls : checker.Unrolls trace)
  (deep : 2 ≤ trace.steps.length)
include wellFormed unrolls

theorem Unrolls.possible_of_step {before after : checker.SystemState} (steps : before.Step after)
    (possible : ∃ assignment : Assignment, (trace.target checker.cumulative).Holds assignment) :
    ∀ formula ∈ trace.steps.drop 1 ++ [trace.target checker.cumulative],
      ∃ assignment : Assignment, formula.Holds assignment :=
  List.forall_mem_append.mpr
    ⟨fun _ member => unrolls.exists_holds_step wellFormed steps (List.mem_of_mem_drop member),
      List.forall_mem_singleton.mpr possible⟩

include deep

theorem Influences.mentions_tail
    (advanced : checker.base.add? checker.action.delta = some reached)
    (possible : ∀ formula ∈ trace.steps.drop 1 ++ [trace.target checker.cumulative],
      ∃ assignment : Assignment, formula.Holds assignment) {var : Variable}
    (influences : checker.Influences var) :
    (checker.unrolling trace start).tail.Mentions (.version var (reached.get var)) := by
  rcases influences with ⟨step, unfolded, mentions⟩ | ⟨still, symbol, mentions, rfl⟩
  · obtain ⟨indexing, reaches, unfolded'⟩ := unrolls.steps 1 trace.steps[1] (by simp)
    have member : trace.steps[1] ∈ trace.steps.drop 1 := List.mem_of_getElem? (i := 0) (by simp)
    refine Checker.mentions_tail possible (List.mem_append_left _ member) ?_
    rw [reaches.eq_rename_step wellFormed.action.regular unfolded unfolded',
      Formula.mentions_rename_iff]
    exact ⟨_, mentions, (shift_base advanced var).symm⟩
  · obtain ⟨bad, indexing, last, reaches, unfoldedBad⟩ := unrolls.exists_last (by omega)
    have inBad :=
      (mentions_bad_iff wellFormed.toWellTyped unfoldedBad _).mpr ⟨symbol, mentions, rfl⟩
    -- No step advances its version, so the last one is still the first one.
    have index : indexing.get symbol.var = reached.get symbol.var := by
      have number := reaches symbol.var
      have number' := Indexing.get_add advanced symbol.var
      rw [still, UInt32.toNat_zero] at number number'
      exact UInt32.toNat_inj.mp (by omega)
    rw [index] at inBad
    exact Checker.mentions_tail possible (by simp)
      (unrolls.mentions_target_of_last wellFormed.toWellTyped checker.cumulative last inBad)

variable (direction : checker.direction = .forward)
include direction

omit deep in
/-- A state of an image is the successor of a tracked state, as far as the rest of
the trace reads it. -/
theorem Derives.exists_follower (positive : 0 < trace.steps.length)
    (advanced : checker.base.add? checker.action.delta = some reached)
    (about : checker.StateFormula start) (tracks : checker.Tracks start)
    (derives : checker.Derives trace start image) {state : checker.SystemState}
    (satisfies : state.Satisfies image) :
    ∃ before after follower : checker.SystemState, before.Step after ∧ follower.Reachable ∧
      after.Alike follower ∧ (after.Violates → follower.Violates) ∧
      ∀ var, (checker.unrolling trace start).tail.Mentions (.version var (reached.get var)) →
        after.value var = state.value var := by
  obtain ⟨before, after, satisfiesBefore, steps, agree⟩ :=
    derives.exists_step wellFormed unrolls positive about direction advanced satisfies
  obtain ⟨other, reachable, alike⟩ := tracks before satisfiesBefore
  obtain ⟨follower, stepsOther, alikeAfter, bad⟩ :=
    alike.exists_step wellFormed advanced (unrolls.opening trace.steps[0] (by simp)) steps
  exact ⟨before, after, follower, steps, reachable.step stepsOther, alikeAfter, bad, agree⟩

variable (about : checker.StateFormula checker.initial)
include about

theorem Starts.tracks
    (possible : ∃ assignment : Assignment, (trace.target checker.cumulative).Holds assignment)
    (starts : checker.Starts trace start) : checker.Tracks start := by
  induction starts with
  | initial => exact tracks_initial
  | image earlier derives tracks =>
      intro state satisfies
      have positive : 0 < trace.steps.length := by omega
      obtain ⟨reached, advanced⟩ := unrolls.advances (List.ne_nil_of_length_pos positive)
      obtain ⟨before, after, follower, steps, reachable, alike, -, agree⟩ :=
        derives.exists_follower wellFormed unrolls direction positive advanced
          (earlier.stateFormula wellFormed.toWellTyped unrolls about) tracks satisfies
      refine ⟨follower, reachable, fun var influences => ?_⟩
      rw [← alike var influences]
      exact (agree var (influences.mentions_tail wellFormed unrolls deep advanced
        (unrolls.possible_of_step wellFormed steps possible))).symm

variable (safe : ∀ state : checker.SystemState, state.Reachable → ¬ state.Violates)
include safe

theorem shields_starts : checker.Shields trace (checker.Starts trace) where
  initial image derives := .image .initial derives
  kept new image _ starts derives := .image starts derives
  safe new aboutNew starts assignment legal holdsHead holdsTail := by
    have positive : 0 < trace.steps.length := by omega
    have unfolded := unrolls.opening trace.steps[0] (by simp)
    obtain ⟨reached, advanced⟩ := unrolls.advances (List.ne_nil_of_length_pos positive)
    obtain ⟨satisfies, isPath, place, less, violates⟩ :=
      legal.path_of_holds wellFormed aboutNew unrolls positive ⟨holdsHead, holdsTail⟩
    have tracks := starts.tracks wellFormed unrolls deep direction about
      ⟨assignment, ((holds_tail_iff trace new).mp holdsTail).2⟩
    exact tracks.not_violates_of_path wellFormed safe advanced unfolded satisfies isPath less
      violates

/-- If all bad states on the way are looked for, none of them is among the states
from which the trace is unrolled. The target reads the property after the first
step, so a bad state of an image would be a bad successor of a tracked state. -/
theorem Starts.not_violates (cumulative : checker.cumulative = true)
    (starts : checker.Starts trace start) {state : checker.SystemState}
    (satisfies : state.Satisfies start) : ¬ state.Violates := by
  intro violates
  have positive : 0 < trace.steps.length := by omega
  have possible := unrolls.exists_holds_target wellFormed positive checker.cumulative violates
  cases starts with
  | initial => exact safe state (SystemState.reachable_of_initial satisfies) violates
  | image earlier derives =>
      obtain ⟨reached, advanced⟩ := unrolls.advances (List.ne_nil_of_length_pos positive)
      obtain ⟨before, after, follower, steps, reachable, -, bad, agree⟩ :=
        derives.exists_follower wellFormed unrolls direction positive advanced
          (earlier.stateFormula wellFormed.toWellTyped unrolls about)
          (earlier.tracks wellFormed unrolls deep direction about possible) satisfies
      refine safe follower reachable (bad ?_)
      refine violates.of_agree wellFormed.propertyPlain fun symbol mentions => ?_
      have inTarget : (trace.target checker.cumulative).Mentions
          (.version symbol.var (reached.get symbol.var)) := by
        rw [cumulative]
        exact unrolls.mentions_target_of_first wellFormed.toWellTyped positive advanced mentions
      exact (agree symbol.var (mentions_tail
        (unrolls.possible_of_step wellFormed steps possible) (by simp) inTarget)).symm

end Traces

/-- A forward check of a safe system that can start ends with a verdict if it may
take two steps, as long as it does not run out of versions. Unless it is
interrupted, it proves the system safe, and does not need a third step. -/
theorem forward_safe_within_two (wellFormed : checker.WellFormed)
    (free : checker.initial.PrimeFree) (direction : checker.direction = .forward)
    {surroundings : Surroundings} (ordinary : surroundings.model = Solver.model) {solver : Solver}
    (idle : solver.assertions = []) (starts : checker.CanStart surroundings solver)
    (bounded : ∀ bound, checker.bound = some bound → 2 ≤ bound)
    (versions : checker.Fits 2 ∨
      (checker.check surroundings solver).1 ≠ .error .versionOverflow)
    (safe : ∀ state : checker.SystemState, state.Reachable → ¬ state.Violates) :
    ∃ result, (checker.check surroundings solver).1 = .ok result ∧
      ((∀ reason ∈ [UnknownReason.inconclusive, .timeout, .cancelled],
          result.verdict ≠ .unknown reason) →
        ∃ proof, result.verdict = .safe proof ∧ proof.depth ≤ 2) := by
  have about := StateFormula.initial wellFormed free
  have decisive : checker.Decisive 2 := fun trace unrolls length =>
    ⟨_, shields_starts wellFormed unrolls (Nat.le_of_eq length.symm) direction about safe⟩
  have enough : 2 ≤ checker.bound.getD depthLimit := by
    cases bound : checker.bound with
    | none => decide
    | some steps => exact bounded steps bound
  exact safe_of_decisive wellFormed idle (by decide) enough decisive starts free ordinary versions
    safe

/-! ## A system that takes two steps -/

def switch : Variable := ⟨0, "switch", .bool⟩

def lamp : Variable := ⟨1, "lamp", .bool⟩

def lighting : Checker Valuation where
  initial := .mkAnd [.mkEq (.version switch 0) (.bool true), .mkEq (.version lamp 0) (.bool true)]
  base := .all 0
  action := ⟨.mkAnd [.mkEq (.primed switch) (.current switch),
    .mkEq (.primed lamp) (.current switch)], ((Indexing.all 0).set switch 1).set lamp 1⟩
  property := .mkEq (.current lamp) (.bool true)
  reconstruct := id
  direction := .forward
  bound := some 2
  cumulative := true
  timeout := none
  bounded := by decide

private theorem elementary_lighting : lighting.Elementary := by decide

theorem wellFormed_lighting : lighting.WellFormed :=
  elementary_lighting.wellFormed_of_arithmeticFree (by decide)

private theorem step_lighting_iff {before after : lighting.SystemState} :
    before.Step after ↔ (Formula.mkAnd [.mkEq (.version switch 1) (.version switch 0),
      .mkEq (.version lamp 1) (.version switch 0)]).Holds (before.between after) :=
  SystemState.step_iff_holds_between wellFormed_lighting (by decide) rfl (by decide)

theorem total_lighting (state : lighting.SystemState) : ∃ next, state.Step next := by
  have truths : ∀ var, lighting.Concerns var → var.domain = switch.domain := by decide
  let next : lighting.SystemState :=
    { value := fun _ => state.value switch
      inDomain := fun var concerned => by
        rw [truths var concerned]
        exact state.inDomain switch (by decide) }
  refine ⟨next, step_lighting_iff.mpr ((Formula.holds_mkAnd_iff _).mpr ?_)⟩
  refine List.forall_mem_cons.mpr ⟨?_, List.forall_mem_singleton.mpr ?_⟩
  all_goals exact (Formula.holds_mkEq_symbol_iff (Formula.hasValue_symbol _ _)).mpr rfl

/-- The lamp stays on. A single step does not show that, because the switch does
not matter at its end. -/
theorem forward_safe_within_two_lighting :
    lighting.WellFormed ∧ lighting.initial.PrimeFree ∧ lighting.Fits 2 ∧
      (∀ state : lighting.SystemState, state.Reachable → ¬ state.Violates) ∧
      ∃ result proof, (lighting.check {} (.new 0 .default)).1 = .ok result ∧
        result.verdict = .safe proof ∧ 1 < proof.depth ∧ proof.depth ≤ 2 := by
  have wellFormed := wellFormed_lighting
  have free := elementary_lighting.initialPrimes
  have fits : lighting.Fits 2 := fits_of_entries (by decide) rfl (by decide)
  obtain ⟨result, proof, checked, safe, deep⟩ :
      ∃ result proof, (lighting.check {} (.new 0 .default)).1 = .ok result ∧
        result.verdict = .safe proof ∧ decide (1 < proof.depth) = true :=
    SafetyResult.exists_of_any (by decide +kernel) Verdict.proof?_eq_some_iff
  have unviolated := unviolated_of_safe wellFormed rfl checked safe
  obtain ⟨_, same, converges⟩ := @forward_safe_within_two _ _ wellFormed free rfl {} rfl
    (.new 0 .default) rfl ⟨by decide, by decide⟩ (by simp [lighting]) (.inl fits) unviolated
  obtain rfl := Except.ok.inj (checked.symm.trans same)
  obtain ⟨proof', safe', shallow⟩ := converges (by simp [safe])
  obtain rfl := Verdict.safe.inj (safe.symm.trans safe')
  exact ⟨wellFormed, free, fits, unviolated, result, proof, checked, safe,
    of_decide_eq_true deep, shallow⟩

end Checker

end SymbolicSafety
