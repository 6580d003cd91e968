import SymbolicSafety.Proofs.Budgets

namespace SymbolicSafety

/-! What a larger budget changes. A search asks for its budget only before a
decision, and a projection also after a cube. As long as it is not refused there,
it goes through the same boxes whatever the budget is, so an answer that is given
stays the same. -/

namespace Problem

variable {problem : Problem} {effort : Effort} {waiting : List Box} {onto : List Nat}
  {enclosed : Enclosed}

/-- A search that comes to an answer takes the same course with a larger budget. -/
theorem explore_of_le {budget larger : Nat} (le : budget ≤ larger)
    (answered : (problem.explore budget effort waiting).1 ≠ .unknown) :
    problem.explore larger effort waiting = problem.explore budget effort waiting := by
  fun_induction explore problem budget effort waiting with
  | case1 => rw [explore]
  | case2 effort box waiting left propagated induction =>
      rw [explore]
      simp only [propagated]
      exact induction answered
  | case3 effort box waiting enclosed propagated chosen =>
      rw [explore]
      simp only [propagated, chosen]
  | case4 => exact absurd rfl answered
  | case5 effort box waiting enclosed propagated input chosen within lower upper split induction =>
      rw [explore]
      simp only [propagated, chosen, split, if_pos (Nat.lt_of_lt_of_le within le)]
      exact induction answered
  | case6 => exact absurd rfl answered

theorem contribution_of_le {budget larger : Nat} (le : budget ≤ larger)
    (known : (problem.contribution onto budget effort enclosed).1 ≠ .unknown) :
    problem.contribution onto larger effort enclosed =
      problem.contribution onto budget effort enclosed := by
  unfold contribution at known ⊢
  cases chosen : problem.choose onto.contains enclosed with
  | satisfied | split => rfl
  | stuck =>
      simp only [chosen] at known
      -- The search of the rest of the box spends from the same budget.
      have answered : (problem.explore budget effort [enclosed.box]).1 ≠ .unknown := by
        intro unknown
        rcases found : problem.explore budget effort [enclosed.box] with ⟨answer, spent⟩
        rw [found] at unknown
        obtain rfl : answer = .unknown := unknown
        simp [found] at known
      simp only [explore_of_le le answered]

theorem enumerate_of_le {limits larger : Limits}
    (decisions : limits.maxDecisions ≤ larger.maxDecisions)
    (room : limits.maxCubes ≤ larger.maxCubes) {cubes : Array Cube} {result : Array Cube × Effort}
    (listed : problem.enumerate onto limits effort cubes waiting = .ok result) :
    problem.enumerate onto larger effort cubes waiting = .ok result := by
  fun_induction enumerate problem onto limits effort cubes waiting with
  | case1 => rw [enumerate]; exact listed
  | case2 effort cubes box waiting left propagated induction =>
      rw [enumerate]
      simp only [propagated]
      exact induction listed
  | case3 => cases listed
  | case4 effort cubes box waiting enclosed propagated more outcome contributed induction =>
      have same : problem.contribution onto larger.maxDecisions effort enclosed = outcome :=
        contribution_of_le decisions (by simp [outcome, contributed])
      rw [enumerate]
      simp only [propagated, same, contributed]
      exact induction listed
  | case5 effort cubes box waiting enclosed propagated more outcome contributed pushed full =>
      -- The smaller limit was exceeded with this cube, so nothing was listed.
      simp only [pushed, Array.size_push] at full
      simp only [Array.size_push, if_pos full] at listed
      cases listed
  | case6 effort cubes box waiting enclosed propagated more outcome contributed pushed fits
      induction =>
      have same : problem.contribution onto larger.maxDecisions effort enclosed = outcome :=
        contribution_of_le decisions (by simp [outcome, contributed])
      have added : pushed = cubes.push (onto.map fun input => enclosed.box.getD input .full) := by
        simp [pushed]
      rw [added] at fits induction
      rw [Array.size_push] at fits
      have fitsLarger : ¬ larger.maxCubes < cubes.size + 1 := by omega
      simp only [Array.size_push, if_neg fits] at listed
      rw [enumerate]
      simp only [propagated, same, contributed, Array.size_push, if_neg fitsLarger]
      exact induction listed
  | case7 effort cubes box waiting enclosed propagated more outcome input contributed within
      lower upper split induction =>
      have same : problem.contribution onto larger.maxDecisions effort enclosed = outcome :=
        contribution_of_le decisions (by simp [outcome, contributed])
      rw [enumerate]
      simp only [propagated, same, contributed, split, if_pos (Nat.lt_of_lt_of_le within decisions)]
      exact induction listed
  | case8 => cases listed

end Problem

namespace Solver

variable {solver : Solver} {larger : Limits}

def withLimits (solver : Solver) (limits : Limits) : Solver := { solver with limits }

@[simp] theorem model_withLimits (solver : Solver) (limits : Limits) :
    (solver.withLimits limits).model = solver.model := rfl

theorem check_withLimits {status : Status} {checked : Solver}
    (decisions : solver.limits.maxDecisions ≤ larger.maxDecisions)
    (answered : solver.check = .ok (status, checked)) (known : status ≠ .unknown) :
    (solver.withLimits larger).check = .ok (status, checked.withLimits larger) := by
  have formulas : (solver.withLimits larger).formulas = solver.formulas := rfl
  simp only [check, Outcome.bind_eq_ok_iff, Outcome.mapError_eq_ok_iff,
    Outcome.pure_eq_ok_iff, Prod.mk.injEq] at answered
  obtain ⟨problem, compiled, rfl, rfl⟩ := answered
  have decided : (problem.solve solver.limits.maxDecisions).1 ≠ .unknown := by
    intro unknown
    rw [unknown] at known
    exact known rfl
  have same : problem.solve (solver.withLimits larger).limits.maxDecisions =
      problem.solve solver.limits.maxDecisions := Problem.explore_of_le decisions decided
  rw [check, formulas, compiled, Outcome.mapError_ok, Outcome.ok_bind, same]
  simp only [if_neg known]
  rfl

theorem interpolant_withLimits {pattern : Pattern} {interpolant : Interpolant} {answered : Solver}
    (decisions : solver.limits.maxDecisions ≤ larger.maxDecisions)
    (room : solver.limits.maxCubes ≤ larger.maxCubes)
    (result : solver.interpolant pattern = .ok (interpolant, answered)) :
    (solver.withLimits larger).interpolant pattern =
      .ok (interpolant, answered.withLimits larger) := by
  have owns (marker : Marker) : (solver.withLimits larger).owns marker = solver.owns marker := rfl
  have status : (solver.withLimits larger).status = solver.status := rfl
  have outsiders : (solver.withLimits larger).outsiders pattern = solver.outsiders pattern := rfl
  have group (marker : Marker) : (solver.withLimits larger).group marker = solver.group marker :=
    rfl
  unfold Solver.interpolant at result ⊢
  simp only [owns, status, outsiders, group]
  by_cases owned : (!(solver.owns pattern.first && solver.owns pattern.second)) = true
  · simp [owned] at result
  by_cases remembered : solver.status ≠ some .unsat
  · simp [owned, remembered] at result
  cases others : solver.outsiders pattern with
  | cons marker rest => simp [owned, remembered, others] at result
  | nil =>
      simp only [owned, remembered, others, if_false, Bool.false_eq_true,
        Outcome.bind_eq_ok_iff, Outcome.mapError_eq_ok_iff, Outcome.pure_eq_ok_iff,
        Prod.exists, Prod.mk.injEq] at result ⊢
      obtain ⟨problem, compiled, cubes, effort, projected, rfl, rfl⟩ := result
      exact ⟨problem, compiled, cubes, effort,
        Problem.enumerate_of_le decisions room projected, rfl, rfl⟩

/-- Budgets only withhold answers. With larger limits a check that was answered
is answered in the same way, with the same model, and the same interpolants are
given. -/
theorem answers_of_larger_budgets
    (decisions : solver.limits.maxDecisions ≤ larger.maxDecisions)
    (room : solver.limits.maxCubes ≤ larger.maxCubes) :
    (∀ status checked, solver.check = .ok (status, checked) → status ≠ .unknown →
      (solver.withLimits larger).check = .ok (status, checked.withLimits larger) ∧
        (checked.withLimits larger).model = checked.model) ∧
    ∀ pattern interpolant answered, solver.interpolant pattern = .ok (interpolant, answered) →
      (solver.withLimits larger).interpolant pattern =
        .ok (interpolant, answered.withLimits larger) :=
  ⟨fun _ _ answered known => ⟨check_withLimits decisions answered known, model_withLimits ..⟩,
    fun _ _ _ result => interpolant_withLimits decisions room result⟩

/-! ## A budget of two decisions -/

theorem answers_of_larger_budgets_squares :
    (∃ checked, (squares.withLimits ⟨0, 1⟩).check = .ok (.unknown, checked)) ∧
    (∃ checked interpolant answered,
      (squares.withLimits ⟨2, 1⟩).check = .ok (.unsat, checked) ∧
      checked.interpolant ⟨⟨0, 0⟩, ⟨0, 1⟩⟩ = .ok (interpolant, answered) ∧
      (squares.withLimits .default).check = .ok (.unsat, checked.withLimits .default) ∧
      (checked.withLimits .default).interpolant ⟨⟨0, 0⟩, ⟨0, 1⟩⟩ =
        .ok (interpolant, answered.withLimits .default)) ∧
    ∃ checked, (halving 4).check = .ok (.sat, checked) ∧
      ((halving 4).withLimits .default).check = .ok (.sat, checked.withLimits .default) ∧
      (checked.withLimits .default).model = checked.model := by
  refine ⟨?_, ?_, ?_⟩
  · obtain ⟨checked, unknown, -⟩ : ∃ checked, (squares.withLimits ⟨0, 1⟩).check =
        .ok (.unknown, checked) ∧ true := Outcome.exists_pair_of_any (by decide +kernel)
    exact ⟨checked, unknown⟩
  · obtain ⟨checked, refuted, given⟩ : ∃ checked, (squares.withLimits ⟨2, 1⟩).check =
        .ok (.unsat, checked) ∧
        (checked.interpolant ⟨⟨0, 0⟩, ⟨0, 1⟩⟩).toOption.any (fun _ => true) :=
      Outcome.exists_pair_of_any (by decide +kernel)
    obtain ⟨⟨interpolant, answered⟩, result, -⟩ := Outcome.any_toOption_iff.mp given
    obtain ⟨-, -, -, -, -, -, -, -, -, limits, -⟩ := check_eq_ok refuted
    have few : checked.limits = ⟨2, 1⟩ := limits
    have larger := @answers_of_larger_budgets (squares.withLimits ⟨2, 1⟩) .default (by decide)
      (by decide)
    have later := @answers_of_larger_budgets checked .default (by rw [few]; decide)
      (by rw [few]; decide)
    exact ⟨checked, interpolant, answered, refuted, result,
      (larger.1 _ _ refuted (by decide)).1, later.2 _ _ _ result⟩
  · obtain ⟨checked, found, -⟩ : ∃ checked, (halving 4).check = .ok (.sat, checked) ∧ true :=
      Outcome.exists_pair_of_any (by decide +kernel)
    exact ⟨checked, found, (@answers_of_larger_budgets (halving 4) .default (by decide)
      (by decide)).1 _ _ found (by decide)⟩

end Solver

end SymbolicSafety
