import SymbolicSafety.Proofs.Satisfiability

namespace SymbolicSafety

/-! The states that a solver can be in, and what its answers are worth there. -/

namespace Solver

inductive Reachable : Solver → Prop where
  | new (id : Nat) (limits : Limits) : Reachable (new id limits)
  | push {solver : Solver} : Reachable solver → Reachable solver.push
  | pop {solver popped : Solver} {count : Nat} :
      Reachable solver → solver.pop count = .ok popped → Reachable popped
  | closeScope {solver : Solver} : Reachable solver → Reachable solver.closeScope
  | reset {solver : Solver} : Reachable solver → Reachable solver.reset
  | createMarker {solver : Solver} : Reachable solver → Reachable solver.createMarker.2
  | add {solver added : Solver} {formula : Formula} :
      Reachable solver → solver.add formula = .ok added → Reachable added
  | addTo {solver added : Solver} {marker : Marker} {formula : Formula} :
      Reachable solver → solver.addTo marker formula = .ok added → Reachable added
  | check {solver checked : Solver} {status : Status} :
      Reachable solver → solver.check = .ok (status, checked) → Reachable checked
  | interpolant {solver answered : Solver} {pattern : Pattern} {interpolant : Interpolant} :
      Reachable solver → solver.interpolant pattern = .ok (interpolant, answered) →
      Reachable answered

/-- All assertions were accepted, and a remembered refutation still stands. -/
structure Consistent (solver : Solver) : Prop where
  assertable : ∀ formula ∈ solver.formulas, Assertable formula
  refuted : solver.last = some .unsat → ∀ valuation : Valuation, ¬ valuation.Solves solver.formulas

theorem Consistent.forget {solver smaller : Solver} (consistent : solver.Consistent)
    (fewer : ∀ assertion ∈ smaller.assertions, assertion ∈ solver.assertions)
    (forgotten : smaller.last = none) : smaller.Consistent where
  assertable formula member := by
    obtain ⟨assertion, inSmaller, rfl⟩ := List.mem_map.mp member
    exact consistent.assertable _ (List.mem_map.mpr ⟨assertion, fewer assertion inSmaller, rfl⟩)
  refuted unsat := by simp [forgotten] at unsat

theorem Consistent.congr {solver other : Solver} (consistent : solver.Consistent)
    (assertions : other.assertions = solver.assertions) (last : other.last = solver.last) :
    other.Consistent := by
  have formulas : other.formulas = solver.formulas := by rw [formulas, assertions, formulas]
  exact ⟨formulas ▸ consistent.assertable, formulas ▸ last ▸ consistent.refuted⟩

theorem Consistent.pop {solver popped : Solver} {count : Nat} (consistent : solver.Consistent)
    (result : solver.pop count = .ok popped) : popped.Consistent := by
  simp only [Solver.pop] at result
  split at result
  · simp at result
  · split at result
    · exact Except.ok.inj result ▸ consistent
    · obtain rfl := Except.ok.inj result
      exact consistent.forget (fun assertion member => List.mem_of_mem_take member) rfl

theorem Consistent.assert {solver added : Solver} {marker : Option Marker} {formula : Formula}
    (consistent : solver.Consistent) (result : solver.assert marker formula = .ok added) :
    added.Consistent := by
  obtain ⟨demanded, rfl⟩ := assert_eq_ok_iff.mp result
  refine ⟨fun other member => ?_, by simp⟩
  simp only [formulas, List.map_append, List.map_cons, List.map_nil, List.mem_append,
    List.mem_singleton] at member
  rcases member with earlier | rfl
  · exact consistent.assertable other earlier
  · exact demanded

theorem Consistent.check {solver checked : Solver} {status : Status}
    (consistent : solver.Consistent) (answered : solver.check = .ok (status, checked)) :
    checked.Consistent := by
  obtain ⟨problem, answer, effort, -, -, rfl, last, assertions, -⟩ := check_eq_ok answered
  have formulas : checked.formulas = solver.formulas := by rw [formulas, assertions, formulas]
  refine ⟨formulas ▸ consistent.assertable, fun unsat => ?_⟩
  rw [last, Option.some.injEq] at unsat
  rw [unsat] at answered
  exact formulas ▸ not_solves_of_check consistent.assertable answered

theorem interpolant_eq_ok {solver answered : Solver} {pattern : Pattern}
    {interpolant : Interpolant}
    (result : solver.interpolant pattern = .ok (interpolant, answered)) :
    solver.status = some .unsat ∧ solver.outsiders pattern = [] ∧
      (∃ problem cubes effort,
        Problem.ofFormulas (solver.group pattern.first) = .ok problem ∧
        problem.project (sharedInputs problem (solver.group pattern.second)) solver.limits =
          .ok (cubes, effort) ∧
        interpolant = ⟨pattern, Cube.toFormula
          ((sharedInputs problem (solver.group pattern.second)).filterMap fun index =>
            problem.circuit.inputs[index]?) (Cube.compress cubes.toList)⟩) ∧
      answered.assertions = solver.assertions ∧ answered.scopes = solver.scopes ∧
      answered.last = solver.last ∧ answered.limits = solver.limits ∧
      answered.id = solver.id ∧ answered.nextMarker = solver.nextMarker := by
  unfold Solver.interpolant at result
  by_cases owned : (!(solver.owns pattern.first && solver.owns pattern.second)) = true
  · simp [owned] at result
  by_cases remembered : solver.status ≠ some .unsat
  · simp [owned, remembered] at result
  cases outsiders : solver.outsiders pattern with
  | cons marker rest => simp [owned, remembered, outsiders] at result
  | nil =>
      simp only [owned, remembered, outsiders, if_false, Bool.false_eq_true,
        Outcome.bind_eq_ok_iff, Outcome.mapError_eq_ok_iff, Outcome.pure_eq_ok_iff,
        Prod.exists, Prod.mk.injEq] at result
      obtain ⟨problem, compiled, cubes, effort, projected, rfl, rfl⟩ := result
      exact ⟨by simpa using remembered, rfl, ⟨problem, cubes, effort, compiled, projected, rfl⟩,
        rfl, rfl, rfl, rfl, rfl, rfl⟩

theorem Reachable.consistent {solver : Solver} (reachable : solver.Reachable) :
    solver.Consistent := by
  induction reachable with
  | new => exact ⟨by simp [Solver.new, formulas], by simp [Solver.new]⟩
  | push _ consistent => exact consistent.forget (fun _ member => member) rfl
  | pop _ result consistent => exact consistent.pop result
  | @closeScope solver _ consistent =>
      unfold Solver.closeScope
      split
      next popped => exact consistent.pop popped
      next => exact consistent.congr rfl rfl
  | reset _ consistent => exact consistent.forget (by simp [Solver.reset]) rfl
  | createMarker _ consistent => exact consistent.congr rfl rfl
  | add _ result consistent => exact consistent.assert result
  | addTo _ result consistent => exact consistent.assert (addTo_eq_ok_iff.mp result).2
  | check _ answered consistent => exact consistent.check answered
  | interpolant _ result consistent =>
      obtain ⟨-, -, -, assertions, -, last, -⟩ := interpolant_eq_ok result
      exact consistent.congr assertions last

/-- An unsatisfiable answer means that no values within the domains make all
assertions true. A satisfiable answer comes with a model that gives every symbol
a value of its domain; under it each assertion is true, unless its arithmetic
overflows. -/
theorem check_sound {solver checked : Solver} {status : Status} (reachable : solver.Reachable)
    (proper : ∀ formula ∈ solver.formulas, formula.Proper)
    (answered : solver.check = .ok (status, checked)) :
    (status = .unsat → ∀ valuation : Valuation,
      (∀ formula ∈ solver.formulas, valuation.Admits formula) →
      ¬ ∀ formula ∈ solver.formulas, formula.evaluate valuation = .ok (.bool true)) ∧
    (status = .sat → ∃ model, checked.model = .ok model ∧
      ∀ formula ∈ solver.formulas, model.Admits formula ∧
        (formula.evaluate model = .ok (.bool true) ∨
          ∃ fault, formula.evaluate model = .error (.overflow fault))) := by
  have assertable := reachable.consistent.assertable
  constructor
  · rintro rfl valuation admits holds
    exact not_solves_of_check assertable answered valuation
      fun formula member => ⟨admits formula member, holds formula member⟩
  · rintro rfl
    exact exists_model_of_check assertable proper answered

def twice (total : Int64) : Formula :=
  let operand : Formula := .current ⟨0, "x", .range 0 3⟩
  .binary .eq (.nary .add [operand, operand]) (.int total)

def halving (total : Int64) : Solver :=
  { new 0 ⟨10, 10⟩ with assertions := [⟨none, twice total⟩] }

private theorem reachable_halving (total : Int64)
    (assertable : Assertable (twice total)) : (halving total).Reachable :=
  .add (.new 0 ⟨10, 10⟩) (assert_eq_ok_iff.mpr ⟨assertable, rfl⟩)

private theorem proper_halving (total : Int64) :
    ∀ formula ∈ (halving total).formulas, formula.Proper := by
  intro formula member symbol mentions
  obtain rfl : formula = twice total := by simpa [halving, formulas] using member
  obtain rfl : symbol = .current ⟨0, "x", .range 0 3⟩ := by
    simpa [twice, Formula.current] using mentions
  decide

theorem check_sound_halving :
    ((halving 5).Reachable ∧ ∃ checked, (halving 5).check = .ok (.unsat, checked) ∧
      ∀ valuation : Valuation, valuation.Admits (twice 5) →
        (twice 5).evaluate valuation ≠ .ok (.bool true)) ∧
    ((halving 4).Reachable ∧ ∃ checked, (halving 4).check = .ok (.sat, checked) ∧
      ∃ model, checked.model = .ok model ∧ model.Admits (twice 4) ∧
        ((twice 4).evaluate model = .ok (.bool true) ∨
          ∃ fault, (twice 4).evaluate model = .error (.overflow fault))) := by
  have five := reachable_halving 5 (by decide +kernel)
  have four := reachable_halving 4 (by decide +kernel)
  obtain ⟨refuted, unsat, -⟩ : ∃ checked, (halving 5).check = .ok (.unsat, checked) ∧ true :=
    Outcome.exists_pair_of_any (by decide +kernel)
  obtain ⟨satisfied, sat, -⟩ : ∃ checked, (halving 4).check = .ok (.sat, checked) ∧ true :=
    Outcome.exists_pair_of_any (by decide +kernel)
  have refutation := (check_sound five (proper_halving 5) unsat).1 rfl
  obtain ⟨model, found, each⟩ := (check_sound four (proper_halving 4) sat).2 rfl
  refine ⟨⟨five, refuted, unsat, fun valuation admits holds => ?_⟩,
    four, satisfied, sat, model, found, each (twice 4) (List.mem_singleton_self _)⟩
  exact refutation valuation (List.forall_mem_singleton.mpr admits)
    (List.forall_mem_singleton.mpr holds)

end Solver

end SymbolicSafety
