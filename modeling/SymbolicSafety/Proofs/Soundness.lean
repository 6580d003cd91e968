import SymbolicSafety.Proofs.ElementarySystems
import SymbolicSafety.Proofs.Verdicts

namespace SymbolicSafety

/-! The two verdicts that a check stands for. A safe verdict comes with an
inductive set of states, a violated one with a shortest run into a bad state. -/

namespace Checker

/-! ## A system for both verdicts -/

def counter : Variable := ⟨0, "counter", .range 0 3⟩

/-- A countdown from three, which is not to fall below a limit. There is no step from
zero. -/
def countdown (limit : Int64) (direction : Direction) (cumulative : Bool) : Checker Valuation where
  initial := .binary .eq (.version counter 0) (.int 3)
  base := .all 0
  action := ⟨.binary .eq (.primed counter) (.binary .sub (.current counter) (.int 1)),
    (Indexing.all 0).set counter 1⟩
  property := .binary .leq (.int limit) (.current counter)
  reconstruct := id
  direction := direction
  bound := none
  cumulative := cumulative
  timeout := none
  bounded := by simp

private theorem exists_evaluatesTo_decrement {valuation : Valuation} {number : Formula}
    {word : Int64} (evaluated : number.EvaluatesTo valuation (.int word)) (least : 0 ≤ word.toInt) :
    ∃ less, (Formula.binary .sub number (.int 1)).EvaluatesTo valuation (.int less) := by
  have below := word.toInt_le
  have difference : Word.sub? word 1 = some (.ofInt (word.toInt - 1)) := by
    have one : (1 : Int64).toInt = 1 := rfl
    have lower : Int64.minValue.toInt = -2 ^ 63 := rfl
    have upper : Int64.maxValue.toInt = 2 ^ 63 - 1 := rfl
    rw [Word.sub?, one, Word.ofInt?, if_pos (by omega)]
  exact ⟨_, .binary (by decide) evaluated (.int 1) (congrArg (Option.map Value.int) difference)⟩

theorem wellFormed_countdown {limit : Int64} {direction : Direction} {cumulative : Bool}
    (elementary : (countdown limit direction cumulative).Elementary)
    (inert : (countdown limit direction cumulative).initial.ArithmeticFree ∧
      (countdown limit direction cumulative).property.ArithmeticFree) :
    (countdown limit direction cumulative).WellFormed := by
  refine elementary.wellFormed inert.1 inert.2 fun step unfolded => ?_
  obtain rfl : Formula.binary .eq (.version counter 1)
    (.binary .sub (.version counter 0) (.int 1)) = step := Option.some.inj unfolded
  refine Formula.staysInRange_of_evaluatesTo fun valuation admits => ?_
  obtain ⟨after, evaluatedAfter, -⟩ :=
    admits.exists_evaluatesTo (.version counter 1) (by simp [Formula.version]) rfl
  obtain ⟨before, evaluatedBefore, least, -⟩ :=
    admits.exists_evaluatesTo (.version counter 0) (by simp [Formula.version]) rfl
  obtain ⟨less, decremented⟩ := exists_evaluatesTo_decrement evaluatedBefore least
  exact ⟨_, .binary (by decide) evaluatedAfter decremented rfl⟩

/-! ## Safety -/

/-- The image of a safe verdict holds initially and is kept by every step, and
every reachable state has the property. -/
theorem inductive_image_of_safe {State : Type} {checker : Checker State}
    (wellFormed : checker.WellFormed) {surroundings : Surroundings} {solver : Solver}
    (idle : solver.assertions = []) {result : SafetyResult State}
    (checked : (checker.check surroundings solver).1 = .ok result) {proof : SafetyProof}
    (safe : result.verdict = .safe proof) :
    (∀ state : checker.SystemState, state.Satisfies checker.initial →
      state.Satisfies proof.image) ∧
    (∀ before after : checker.SystemState, before.Satisfies proof.image → before.Step after →
      after.Satisfies proof.image) ∧
    ∀ state : checker.SystemState, state.Reachable → state.Satisfies checker.property := by
  have sound := sound_of_check wellFormed idle checked
  rw [safe] at sound
  exact ⟨sound.initial, sound.closed, sound.safe⟩

theorem inductive_image_of_safe_countdown :
    ∃ result proof, (countdown 0 .forward true).WellFormed ∧
      ((countdown 0 .forward true).check {} (.new 0 .default)).1 = .ok result ∧
      result.verdict = .safe proof ∧
      (∀ state : (countdown 0 .forward true).SystemState,
        state.Satisfies (countdown 0 .forward true).initial → state.Satisfies proof.image) ∧
      (∀ before after : (countdown 0 .forward true).SystemState,
        before.Satisfies proof.image → before.Step after → after.Satisfies proof.image) ∧
      ∀ state : (countdown 0 .forward true).SystemState, state.Reachable →
        state.Satisfies (countdown 0 .forward true).property := by
  have wellFormed : (countdown 0 .forward true).WellFormed :=
    wellFormed_countdown (by decide) (by decide)
  obtain ⟨result, proof, checked, safe, -⟩ :
      ∃ result proof, ((countdown 0 .forward true).check {} (.new 0 .default)).1 = .ok result ∧
        result.verdict = .safe proof ∧ true :=
    SafetyResult.exists_of_any (by decide +kernel) Verdict.proof?_eq_some_iff
  exact ⟨result, proof, wellFormed, checked, safe,
    inductive_image_of_safe wellFormed rfl checked safe⟩

/-! ## Violation -/

/-- A counterexample names the states of a run that starts initially, follows
the steps, and ends in a bad state. It has one state more than steps, the
property is false in the last of them, and no shorter run ends in a bad state. -/
theorem shortest_run_of_violated {checker : Checker Valuation} (wellFormed : checker.WellFormed)
    (plainly : checker.reconstruct = id) {surroundings : Surroundings}
    (ordinary : surroundings.model = Solver.model) {solver : Solver}
    (idle : solver.assertions = []) {result : SafetyResult Valuation}
    (checked : (checker.check surroundings solver).1 = .ok result)
    {counterexample : Counterexample Valuation}
    (violated : result.verdict = .violated counterexample) :
    counterexample.states.length = counterexample.depth + 1 ∧
    (∃ run : Nat → checker.SystemState, checker.IsRun run counterexample.depth ∧
      (run counterexample.depth).Violates ∧
      ∀ (place : Nat) (state : Valuation), counterexample.states[place]? = some state →
        ∀ symbol value, state.get? symbol = some value →
          symbol = .current symbol.var ∧ (run place).value symbol.var = value) ∧
    (∀ state, counterexample.states[counterexample.depth]? = some state →
      checker.property.evaluateBool state = .ok false) ∧
    ∀ (run : Nat → checker.SystemState) (length : Nat), length < counterexample.depth →
      checker.IsRun run length → ¬ (run length).Violates := by
  have sound := sound_of_check wellFormed idle checked
  rw [violated] at sound
  obtain ⟨depth, states, rfl, witnesses⟩ := sound ordinary
  rw [plainly, List.map_id]
  exact ⟨witnesses.length, witnesses.follows, witnesses.violated, witnesses.minimal⟩

theorem shortest_run_of_violated_countdown :
    ∃ result states, (countdown 2 .backward false).WellFormed ∧
      ((countdown 2 .backward false).check {} (.new 0 .default)).1 = .ok result ∧
      result.verdict = .violated ⟨2, states⟩ ∧ states.length = 3 ∧
      (∃ run : Nat → (countdown 2 .backward false).SystemState,
        (countdown 2 .backward false).IsRun run 2 ∧ (run 2).Violates ∧
        ∀ (place : Nat) (state : Valuation), states[place]? = some state →
          ∀ symbol value, state.get? symbol = some value →
            symbol = .current symbol.var ∧ (run place).value symbol.var = value) ∧
      (∀ state, states[2]? = some state →
        (countdown 2 .backward false).property.evaluateBool state = .ok false) ∧
      ∀ (run : Nat → (countdown 2 .backward false).SystemState) (length : Nat), length < 2 →
        (countdown 2 .backward false).IsRun run length → ¬ (run length).Violates := by
  have wellFormed : (countdown 2 .backward false).WellFormed :=
    wellFormed_countdown (by decide) (by decide)
  obtain ⟨result, ⟨depth, states⟩, checked, violated, two⟩ :
      ∃ result counterexample,
        ((countdown 2 .backward false).check {} (.new 0 .default)).1 = .ok result ∧
        result.verdict = .violated counterexample ∧ decide (counterexample.depth = 2) = true :=
    SafetyResult.exists_of_any (by decide +kernel) Verdict.counterexample?_eq_some_iff
  obtain rfl : depth = 2 := of_decide_eq_true two
  exact ⟨result, states, wellFormed, checked, violated,
    shortest_run_of_violated wellFormed rfl rfl rfl checked violated⟩

end Checker

end SymbolicSafety
