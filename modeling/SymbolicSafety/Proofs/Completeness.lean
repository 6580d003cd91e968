import Mathlib.Algebra.GroupWithZero.Nat
import SymbolicSafety.Proofs.Progress
import SymbolicSafety.Proofs.Soundness

namespace SymbolicSafety

/-! What a bounded check does not miss. If a run within the bound ends in a bad
state, the check finds a shortest one, and it only gives up at the bound when
there is none. -/

namespace Checker

section

variable {State : Type} {checker : Checker State} {run : Nat → checker.SystemState} {length : Nat}

theorem Witnesses.depth_eq {depth : Nat} {states : List Valuation}
    (witnesses : checker.Witnesses depth states) (minimal : checker.SafeBelow length)
    (isRun : checker.IsRun run length) (violates : (run length).Violates) : depth = length := by
  obtain ⟨other, isOther, violatesOther, -⟩ := witnesses.follows
  apply Nat.le_antisymm
  · apply Nat.le_of_not_lt
    intro shorter
    exact witnesses.minimal run length shorter isRun violates
  · apply Nat.le_of_not_lt
    intro shorter
    exact minimal other depth shorter isOther violatesOther

/-- A check with a bound that can start ends with a verdict, as long as it does not
run out of versions. Unless it is interrupted, it finds a shortest run into a bad state if
there is one within the bound, and if the bound is all that it reaches, there is
none. -/
theorem complete_within_bound (wellFormed : checker.WellFormed)
    (free : checker.initial.PrimeFree) {surroundings : Surroundings}
    (ordinary : surroundings.model = Solver.model) {solver : Solver}
    (idle : solver.assertions = []) (starts : checker.CanStart surroundings solver) {bound : Nat}
    (bounded : checker.bound = some bound)
    (versions : checker.Fits bound ∨
      (checker.check surroundings solver).1 ≠ .error .versionOverflow) :
    ∃ result, (checker.check surroundings solver).1 = .ok result ∧
      ((∀ reason ∈ [UnknownReason.inconclusive, .timeout, .cancelled],
          result.verdict ≠ .unknown reason) →
        ∀ length ≤ bound, checker.SafeBelow length →
          (∃ run, checker.IsRun run length ∧ (run length).Violates) →
          ∃ counterexample, result.verdict = .violated counterexample ∧
            counterexample.depth = length) ∧
      ∀ reached, result.verdict = .unknown (.boundReached reached) →
        reached = bound ∧ ∀ run, ∀ length ≤ bound, checker.IsRun run length →
          ¬ (run length).Violates := by
  obtain ⟨result, checked⟩ | ⟨misfit, failed⟩ :=
    check_ends wellFormed free ordinary bounded idle starts
  · have sound := sound_of_check wellFormed idle checked
    refine ⟨result, checked, ?_, fun reached gaveUp => ?_⟩
    · rintro uninterrupted length within minimal ⟨run, isRun, violates⟩
      cases verdict : result.verdict with
      | safe proof =>
          rw [verdict] at sound
          exact absurd violates (sound.not_violates isRun)
      | violated counterexample =>
          rw [verdict] at sound
          obtain ⟨depth, states, rfl, witnesses⟩ := sound ordinary
          exact ⟨_, rfl, witnesses.depth_eq minimal isRun violates⟩
      | unknown reason =>
          cases reason with
          | boundReached reached =>
              rw [verdict] at sound
              obtain ⟨same, safe⟩ := sound
              obtain rfl := Option.some.inj (bounded.symm.trans same)
              exact absurd violates (safe run length (Nat.lt_succ_of_le within) isRun)
          | inconclusive | timeout | cancelled => exact absurd verdict (uninterrupted _ (by simp))
    · rw [gaveUp] at sound
      obtain ⟨same, safe⟩ := sound
      obtain rfl := Option.some.inj (bounded.symm.trans same)
      exact ⟨rfl, fun run length within => safe run length (Nat.lt_succ_of_le within)⟩
  · rcases versions with fits | enough
    · exact absurd fits misfit
    · exact absurd failed enough

end

/-! ## A countdown within a bound -/

def countdownWithin (steps : Nat) [NeZero steps] : Checker Valuation :=
  { countdown 2 .backward false with
    bound := some steps
    bounded := by simp [NeZero.ne] }

private theorem wellFormed_countdownWithin (steps : Nat) [NeZero steps] :
    (countdownWithin steps).WellFormed :=
  have wellFormed : (countdown 2 .backward false).WellFormed :=
    wellFormed_countdown (by decide) (by decide)
  { wellFormed with }

private theorem exists_shortest_run_countdownWithin {result : SafetyResult Valuation}
    {counterexample : Counterexample Valuation}
    (checked : ((countdownWithin 4).check {} (.new 0 .default)).1 = .ok result)
    (violated : result.verdict = .violated counterexample) (two : counterexample.depth = 2) :
    (countdownWithin 4).SafeBelow 2 ∧
      ∃ run, (countdownWithin 4).IsRun run 2 ∧ SystemState.Violates (run 2) := by
  have sound := sound_of_check (wellFormed_countdownWithin 4) rfl checked
  rw [violated] at sound
  obtain ⟨depth, values, rfl, witnesses⟩ := sound rfl
  obtain rfl : depth = 2 := two
  obtain ⟨run, isRun, violates, -⟩ := witnesses.follows
  exact ⟨witnesses.minimal, run, isRun, violates⟩

/-- The countdown falls below two in its second step. A check within four steps
finds that, and a check within one step knows that it does not happen there. -/
theorem complete_within_bound_countdown :
    ((countdownWithin 4).WellFormed ∧ (countdownWithin 4).initial.PrimeFree ∧
      (countdownWithin 4).Fits 4 ∧ (countdownWithin 4).SafeBelow 2 ∧
      ∃ result, ((countdownWithin 4).check {} (.new 0 .default)).1 = .ok result ∧
        ∃ counterexample, result.verdict = .violated counterexample ∧
          counterexample.depth = 2) ∧
    ∃ result, ((countdownWithin 1).check {} (.new 0 .default)).1 = .ok result ∧
      result.verdict = .unknown (.boundReached 1) ∧
      ∀ run, ∀ length ≤ 1, (countdownWithin 1).IsRun run length →
        ¬ SystemState.Violates (run length) := by
  constructor
  · have wellFormed := wellFormed_countdownWithin 4
    have free : (countdownWithin 4).initial.PrimeFree := by decide
    have fits : (countdownWithin 4).Fits 4 := fits_of_entries (by decide) rfl (by decide)
    obtain ⟨result, counterexample, checked, violated, two⟩ :
        ∃ result counterexample,
          ((countdownWithin 4).check {} (.new 0 .default)).1 = .ok result ∧
          result.verdict = .violated counterexample ∧ decide (counterexample.depth = 2) = true :=
      SafetyResult.exists_of_any (by decide +kernel) Verdict.counterexample?_eq_some_iff
    obtain ⟨minimal, run⟩ :=
      exists_shortest_run_countdownWithin checked violated (of_decide_eq_true two)
    obtain ⟨_, same, complete, -⟩ := @complete_within_bound _ _ wellFormed free {} rfl
      (.new 0 .default) rfl ⟨by decide, by decide⟩ 4 rfl (.inl fits)
    obtain rfl := Except.ok.inj (checked.symm.trans same)
    have uninterrupted : ∀ reason ∈ [UnknownReason.inconclusive, .timeout, .cancelled],
        result.verdict ≠ .unknown reason := by simp [violated]
    exact ⟨wellFormed, free, fits, minimal, result, checked,
      complete uninterrupted 2 (by decide) minimal run⟩
  · obtain ⟨result, reason, checked, gaveUp, reached⟩ :
        ∃ result reason, ((countdownWithin 1).check {} (.new 0 .default)).1 = .ok result ∧
          result.verdict = .unknown reason ∧ decide (reason = .boundReached 1) = true :=
      SafetyResult.exists_of_any (by decide +kernel) Verdict.reason?_eq_some_iff
    obtain rfl : reason = .boundReached 1 := of_decide_eq_true reached
    obtain ⟨_, same, -, exhausted⟩ :=
      @complete_within_bound _ _ (wellFormed_countdownWithin 1) (by decide) {} rfl
        (.new 0 .default) rfl ⟨by decide, by decide⟩ 1 rfl
        (.inl (fits_of_entries (by decide) rfl (by decide)))
    obtain rfl := Except.ok.inj (checked.symm.trans same)
    exact ⟨result, checked, gaveUp, (exhausted 1 gaveUp).2⟩

end Checker

end SymbolicSafety
