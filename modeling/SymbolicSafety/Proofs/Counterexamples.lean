import SymbolicSafety.Proofs.CheckerRun
import SymbolicSafety.Proofs.StateReading

namespace SymbolicSafety

/-! Counterexamples. A model of an unrolled trace describes a run into a bad
state. The path that is read off the model names the states of that run as far
as the model binds their variables, and it ends in the first bad one. -/

namespace Checker

theorem upToViolation_eq {property : Formula} {states shown : List Valuation}
    (safe : ∀ (place : Nat) (state : Valuation), states[place]? = some state →
      place + 1 < states.length → property.evaluateBool state ≠ .ok false)
    (result : upToViolation property states = .ok shown) : shown = states := by
  induction states generalizing shown with
  | nil => exact (Except.ok.inj result).symm
  | cons head rest induction =>
      have later : ∀ shown, upToViolation property rest = .ok shown → shown = rest := by
        refine fun shown => induction fun place state found less => ?_
        exact safe (place + 1) state (by simpa using found) (by simpa using less)
      unfold upToViolation at result
      split at result
      next violated =>
        cases rest with
        | nil => exact (Except.ok.inj result).symm
        | cons => exact absurd violated (safe 0 head rfl (by simp))
      next =>
        simp only [Outcome.bind_eq_ok_iff, Outcome.pure_eq_ok_iff] at result
        obtain ⟨others, shownRest, rfl⟩ := result
        rw [later others shownRest]
      next =>
        split at result
        next =>
          simp only [Outcome.bind_eq_ok_iff, Outcome.pure_eq_ok_iff] at result
          obtain ⟨others, shownRest, rfl⟩ := result
          rw [later others shownRest]
        next => cases result

theorem upToViolation_cases (property : Formula) (states : List Valuation) :
    (∃ shown, upToViolation property states = .ok shown) ∨
      (upToViolation property states = .error .unprintable ∧
        ∃ state ∈ states, ∃ error, property.evaluateBool state = .error error ∧
          error.message? = none) := by
  induction states with
  | nil => exact .inl ⟨[], rfl⟩
  | cons head rest induction =>
      have next (goesOn : upToViolation property (head :: rest) =
          (upToViolation property rest).bind fun shown => .ok (head :: shown)) :
          (∃ shown, upToViolation property (head :: rest) = .ok shown) ∨
            (upToViolation property (head :: rest) = .error .unprintable ∧
              ∃ state ∈ head :: rest, ∃ error, property.evaluateBool state = .error error ∧
                error.message? = none) := by
        rw [goesOn]
        obtain ⟨shown, shownRest⟩ | ⟨failed, state, member, failure⟩ := induction
        · exact .inl ⟨head :: shown, by rw [shownRest]; rfl⟩
        · exact .inr ⟨by rw [failed]; rfl, state, List.mem_cons_of_mem _ member, failure⟩
      cases evaluated : property.evaluateBool head with
      | ok holds =>
          cases holds with
          | false => exact .inl ⟨[head], by simp [upToViolation, evaluated]⟩
          | true => exact next (by rw [upToViolation, evaluated]; rfl)
      | error error =>
          cases message : error.message? with
          | none =>
              exact .inr ⟨by simp [upToViolation, evaluated, message], head, List.mem_cons_self,
                error, evaluated, message⟩
          | some text => exact next (by simp only [upToViolation, evaluated, message]; rfl)

variable {State : Type} {checker : Checker State}

variable (checker) in
/-- No run of fewer steps ends in a bad state. -/
def SafeBelow (depth : Nat) : Prop :=
  ∀ (run : Nat → checker.SystemState) (length : Nat), length < depth →
    checker.IsRun run length → ¬ (run length).Violates

variable (checker) in
/-- The states are those of a shortest run into a state that violates the
property, as far as they have values. -/
structure Witnesses (depth : Nat) (states : List Valuation) : Prop where
  length : states.length = depth + 1
  follows : ∃ run : Nat → checker.SystemState, checker.IsRun run depth ∧ (run depth).Violates ∧
    ∀ (place : Nat) (state : Valuation), states[place]? = some state →
      ∀ symbol value, state.get? symbol = some value →
        symbol = .current symbol.var ∧ (run place).value symbol.var = value
  violated : ∀ state, states[depth]? = some state → checker.property.evaluateBool state = .ok false
  minimal : checker.SafeBelow depth

variable (checker) in
/-- In some state the property overflows, in a part that is nested too deeply for
a message about it. -/
def OverflowsUnprintably : Prop :=
  ∃ (state : checker.SystemState) (fault : Formula),
    checker.property.evaluate (state.reading checker.property) = .error (.overflow fault) ∧
      fault.printable = false

theorem not_overflowsUnprintably (wellFormed : checker.WellFormed) :
    ¬ checker.OverflowsUnprintably := by
  rintro ⟨state, fault, overflow, -⟩
  obtain ⟨holds, evaluated⟩ := state.exists_truth wellFormed
  rw [overflow] at evaluated
  cases evaluated

section Models

variable {model : Valuation} {depth : Nat} {indexings : List Indexing} {states : List Valuation}
  (legal : checker.Legal model.completed)
  (bound : ∀ symbol value, model.get? symbol = some value → model.completed symbol = value)
include bound

private theorem value_of_stateAt {place : Nat} {indexing : Indexing}
    (reaches : checker.Reaches place indexing) {symbol : Symbol} {value : Value}
    (shown : (model.stateAt indexing).get? symbol = some value) :
    symbol = .current symbol.var ∧ (legal.later place).state.value symbol.var = value := by
  obtain ⟨same, held⟩ := (Valuation.get?_stateAt ..).mp shown
  refine ⟨same, ?_⟩
  rw [← bound _ _ held, ← reaches.shift]
  rfl

private theorem evaluate_stateAt (typed : checker.WellTyped) {place : Nat}
    {indexing : Indexing} (reaches : checker.Reaches place indexing) :
    (∃ symbol, checker.property.evaluate (model.stateAt indexing) = .error (.unbound symbol)) ∨
      checker.property.evaluate (model.stateAt indexing) =
        checker.property.evaluate ((legal.later place).state.reading checker.property) := by
  refine checker.property.evaluate_extend fun symbol value mentions shown => ?_
  rw [SystemState.get?_reading mentions
    (SystemState.reads_property typed.propertyPlain symbol mentions),
    (value_of_stateAt legal bound reaches shown).2]

private theorem violates_of_stateAt (wellFormed : checker.WellFormed) {place : Nat}
    {indexing : Indexing} (reaches : checker.Reaches place indexing)
    (violated : checker.property.evaluateBool (model.stateAt indexing) = .ok false) :
    (legal.later place).state.Violates := by
  rw [Formula.evaluateBool, Formula.asBool_eq_ok_iff] at violated
  obtain ⟨symbol, missed⟩ | same := evaluate_stateAt legal bound wellFormed.toWellTyped reaches
  · simp [missed] at violated
  · exact same.symm.trans violated

include legal in
theorem upToViolation_stateAt_cases (typed : checker.WellTyped)
    (reaches : ∀ (place : Nat) (indexing : Indexing), indexings[place]? = some indexing →
      checker.Reaches place indexing) :
    (∃ states, upToViolation checker.property (indexings.map model.stateAt) = .ok states) ∨
      (upToViolation checker.property (indexings.map model.stateAt) = .error .unprintable ∧
        checker.OverflowsUnprintably) := by
  refine (upToViolation_cases ..).imp_right (And.imp_right ?_)
  rintro ⟨state, member, error, failed, silent⟩
  obtain ⟨indexing, inIndexings, rfl⟩ := List.mem_map.mp member
  obtain ⟨place, found⟩ := List.mem_iff_getElem?.mp inIndexings
  rw [Formula.evaluateBool] at failed
  obtain ⟨symbol, missed⟩ | same :=
    evaluate_stateAt legal bound typed (reaches place indexing found)
  · rw [missed] at failed
    obtain rfl : EvalError.unbound symbol = error := Except.error.inj failed
    cases silent
  · rw [same] at failed
    obtain ⟨holds, evaluated⟩ | ⟨fault, overflow⟩ :=
      (legal.later place).state.evaluate_property typed
    · rw [evaluated] at failed
      cases failed
    · rw [overflow] at failed
      obtain rfl : EvalError.overflow fault = error := Except.error.inj failed
      refine ⟨_, fault, overflow, ?_⟩
      cases printable : fault.printable with
      | false => rfl
      | true => simp [EvalError.message?, Formula.text?, Formula.render?, printable] at silent

/-- A model of a shortest run into a bad state is shown as such a run. -/
theorem witnesses_of_model (wellFormed : checker.WellFormed)
    (count : indexings.length = depth + 1)
    (reaches : ∀ (place : Nat) (indexing : Indexing), indexings[place]? = some indexing →
      checker.Reaches place indexing)
    (isRun : checker.IsRun (fun place => (legal.later place).state) depth)
    (violates : (legal.later depth).state.Violates)
    (named : ∀ (indexing : Indexing) (symbol : Symbol), indexings[depth]? = some indexing →
      checker.property.Mentions symbol →
      ∃ value, model.get? (.version symbol.var (indexing.get symbol.var)) = some value)
    (minimal : checker.SafeBelow depth) :
    ∃ states, upToViolation checker.property (indexings.map model.stateAt) = .ok states ∧
      checker.Witnesses depth states := by
  obtain ⟨states, shown⟩ | ⟨-, overflows⟩ :=
    upToViolation_stateAt_cases legal bound wellFormed.toWellTyped reaches
  case inr => exact absurd overflows (not_overflowsUnprintably wellFormed)
  refine ⟨states, shown, ?_⟩
  have entry {place : Nat} {state : Valuation}
      (found : (indexings.map model.stateAt)[place]? = some state) :
      ∃ indexing, indexings[place]? = some indexing ∧ model.stateAt indexing = state := by
    simpa using found
  -- A state before the last one in which the property is false would end a shorter run.
  obtain rfl := upToViolation_eq (fun place state found less violated => by
    obtain ⟨indexing, passed, rfl⟩ := entry found
    rw [List.length_map, count] at less
    exact minimal _ place (by omega) ⟨isRun.1, fun earlier less => isRun.2 earlier (by omega)⟩
      (violates_of_stateAt legal bound wellFormed (reaches place indexing passed) violated)) shown
  refine ⟨by simpa using count, ⟨_, isRun, violates, fun place state found symbol value held => ?_⟩,
    fun state found => ?_, minimal⟩
  · obtain ⟨indexing, passed, rfl⟩ := entry found
    exact value_of_stateAt legal bound (reaches place indexing passed) held
  · obtain ⟨indexing, passed, rfl⟩ := entry found
    rw [Formula.evaluateBool, Formula.asBool_eq_ok_iff, ← violates]
    refine checker.property.evaluate_congr fun symbol mentions => ?_
    have isRead := SystemState.reads_property wellFormed.propertyPlain symbol mentions
    have isCurrent : symbol = .current symbol.var := by
      cases symbol with
      | current => rfl
      | version var index => exact absurd mentions (wellFormed.propertyPlain.2 var index)
    obtain ⟨value, held⟩ := named indexing symbol passed mentions
    have shown := (Valuation.get?_stateAt model indexing symbol value).mpr ⟨isCurrent, held⟩
    rw [SystemState.get?_reading mentions isRead, shown,
      (value_of_stateAt legal bound (reaches depth indexing passed) shown).2]

end Models

/-! ## Models of traces -/

section Traces

variable {trace : Trace} {pattern : Pattern} {posed checked : Solver}
  (wellFormed : checker.WellFormed)
include wellFormed

theorem witnesses_of_initial_sat (about : checker.StateFormula checker.initial) {bad : Formula}
    (unfolded : checker.badStates.unfoldAt? checker.base = some bad)
    (formulas : posed.formulas = [checker.initial, bad]) (consistent : posed.Consistent)
    (sat : posed.check = .ok (.sat, checked)) :
    ∃ model, checked.model = .ok model ∧ ∃ states,
      upToViolation checker.property ([checker.base].map model.stateAt) = .ok states ∧
        checker.Witnesses 0 states := by
  have speaks := Reaches.zero.speaksOf_bad wellFormed.toWellTyped unfolded
  obtain ⟨model, found, holds, bound⟩ := Solver.exists_holds_of_check consistent.assertable
    (formulas ▸ List.forall_mem_cons.mpr ⟨about.speaks.proper wellFormed.toWellTyped,
      List.forall_mem_singleton.mpr (speaks.proper wellFormed.toWellTyped)⟩)
    (formulas ▸ List.forall_mem_cons.mpr ⟨about.decided,
      List.forall_mem_singleton.mpr (decided_bad wellFormed unfolded)⟩) sat
  rw [formulas, List.forall_mem_cons, List.forall_mem_singleton] at holds
  obtain ⟨⟨-, holdsInitial⟩, admits, holdsBad⟩ := holds
  have legal := legal_completed wellFormed.toWellTyped model
  refine ⟨model, found, ?_⟩
  have single {place : Nat} {indexing : Indexing} (found : [checker.base][place]? = some indexing) :
      place = 0 ∧ indexing = checker.base := by
    cases place <;> simp_all
  refine witnesses_of_model legal bound wellFormed rfl ?_ ⟨?_, by simp [IsPath]⟩ ?_ ?_
    (by simp [SafeBelow])
  · intro place indexing found
    obtain ⟨rfl, rfl⟩ := single found
    exact .zero
  · exact (about.satisfies_iff (legal.later 0).describes).mpr
      ((later_zero model.completed).symm ▸ holdsInitial)
  · exact (Reaches.zero.holds_bad_iff wellFormed unfolded (legal.later 0).describes).mp holdsBad
  · intro indexing symbol found mentions
    obtain ⟨-, rfl⟩ := single found
    obtain ⟨value, held, -⟩ := admits _
      ((mentions_bad_iff wellFormed.toWellTyped unfolded _).mpr ⟨symbol, mentions, rfl⟩)
    exact ⟨value, held⟩

theorem Legal.path_of_holds {start : Formula} {assignment : Assignment}
    (legal : checker.Legal assignment) (about : checker.StateFormula start)
    (unrolls : checker.Unrolls trace) (positive : 0 < trace.steps.length)
    (holds : (checker.unrolling trace start).head.Holds assignment ∧
      (checker.unrolling trace start).tail.Holds assignment) :
    (legal.later 0).state.Satisfies start ∧
      checker.IsPath (fun place => (legal.later place).state) trace.steps.length ∧
      ∃ place < trace.steps.length, (legal.later (place + 1)).state.Violates := by
  have unfolded := unrolls.opening trace.steps[0] (by simp)
  obtain ⟨reached, advanced⟩ := unrolls.advances (List.ne_nil_of_length_pos positive)
  obtain ⟨holdsStart, holdsSteps, holdsTarget⟩ :=
    (holds_parts_iff wellFormed unrolls unfolded start).mp holds
  refine ⟨(about.satisfies_iff (legal.later 0).describes).mpr
    ((later_zero assignment).symm ▸ holdsStart),
    legal.isPath wellFormed advanced unfolded holdsSteps, ?_⟩
  obtain ⟨bad, member, holdsBad⟩ := unrolls.exists_bad_of_target wellFormed legal holdsTarget
  obtain ⟨place, found⟩ := List.mem_iff_getElem?.mp member
  obtain ⟨indexing, reaches, unfoldedBad⟩ := unrolls.bad place bad found
  exact ⟨place, unrolls.bad_length ▸ (List.getElem?_eq_some_iff.mp found).1,
    (reaches.holds_bad_iff wellFormed unfoldedBad (legal.later (place + 1)).describes).mp holdsBad⟩

theorem witnesses_of_sat (about : checker.StateFormula checker.initial)
    (unrolls : checker.Unrolls trace) (positive : 0 < trace.steps.length)
    (poses : checker.Poses pattern (checker.unrolling trace checker.initial) posed)
    (sat : posed.check = .ok (.sat, checked))
    (minimal : checker.SafeBelow trace.steps.length) :
    ∃ model, checked.model = .ok model ∧ ∃ states,
      upToViolation checker.property (trace.indexings.map model.stateAt) = .ok states ∧
        checker.Witnesses trace.steps.length states := by
  have unfolded := unrolls.opening trace.steps[0] (by simp)
  obtain ⟨model, found, holds, bound⟩ := Solver.exists_holds_of_check poses.consistent.assertable
    (poses.proper wellFormed.toWellTyped unrolls about.speaks)
    (poses.decided wellFormed unrolls unfolded about) sat
  have legal := legal_completed wellFormed.toWellTyped model
  obtain ⟨satisfies, isPath, place, upTo, violates⟩ := legal.path_of_holds wellFormed about unrolls
    positive (poses.holds_formulas_iff.mp fun formula member => (holds formula member).2)
  refine ⟨model, found, ?_⟩
  refine witnesses_of_model legal bound wellFormed ?_ unrolls.indexings ⟨satisfies, isPath⟩ ?_ ?_
    minimal
  · simp [Trace.indexings, unrolls.passed_length]
  · -- The target may allow bad states at every step; the earlier ones are excluded.
    rcases Nat.lt_or_eq_of_le upTo with earlier | same
    · exact absurd violates (minimal _ (place + 1) earlier
        ⟨satisfies, fun before less => isPath before (Nat.lt_trans less earlier)⟩)
    · exact same ▸ violates
  · -- In both of its shapes the target mentions the last versions, and a model binds
    -- what is mentioned.
    intro indexing symbol passed mentions
    obtain ⟨bad, indexing', last, reaches, unfoldedBad⟩ := unrolls.exists_last positive
    have inBad := (mentions_bad_iff wellFormed.toWellTyped unfoldedBad _).mpr
      ⟨symbol, mentions, rfl⟩
    rw [reaches.get_eq (unrolls.indexings _ indexing passed)] at inBad
    have holdsTail := holds _ ((poses.mem_formulas_iff _).mpr (.inr rfl))
    have possible : ∀ formula ∈ trace.steps.drop 1 ++ [trace.target checker.cumulative],
        ∃ assignment : Assignment, formula.Holds assignment := fun formula member =>
      ⟨_, (Formula.holds_mkAnd_iff _).mp holdsTail.2 formula member⟩
    obtain ⟨value, held, -⟩ := holdsTail.1 _ (mentions_tail possible (by simp)
      (unrolls.mentions_target_of_last wellFormed.toWellTyped checker.cumulative last inBad))
    exact ⟨value, held⟩

end Traces

theorem returns_witness_iff {surroundings : Surroundings} {before after : RunState}
    {indexings : List Indexing} {counterexample : Counterexample State} {model : Valuation}
    {states : List Valuation} (found : surroundings.model before.solver = .ok model)
    (upTo : upToViolation checker.property (indexings.map model.stateAt) = .ok states) :
    (checker.witness surroundings indexings).Returns before counterexample after ↔
      counterexample = ⟨states.length - 1, states.map checker.reconstruct⟩ ∧ before = after := by
  simp only [witness, Run.returns_bind_iff, Run.returns_get_iff, and_assoc, exists_and_left,
    exists_eq_left', found, Run.returns_lift_iff, upTo, Except.ok.injEq, Run.returns_pure_iff,
    eq_comm (a := counterexample)]

end Checker

end SymbolicSafety
