import SymbolicSafety.Proofs.SolverAnswers

namespace SymbolicSafety

/-! Models and declared domains. A model gives each symbol a value of its domain
exactly when the domain has one. The search never looks whether a range is
empty, so a range whose ends cross may still get a value. -/

def Box.HoldsPart (box : Box) (index : Nat) (outer : Interval) : Prop :=
  ∃ interval, box[index]? = some interval ∧ interval.lo ≤ interval.hi ∧
    outer.lo ≤ interval.lo ∧ interval.hi ≤ outer.hi

namespace Box

variable {box : Box} {index : Nat} {outer : Interval}

private theorem HoldsPart.of_setIfInBounds {part interval : Interval}
    (found : box[index]? = some interval) (ordered : part.lo ≤ part.hi)
    (within : outer.lo ≤ part.lo ∧ part.hi ≤ outer.hi) :
    HoldsPart (box.setIfInBounds index part) index outer := by
  refine ⟨part, ?_, ordered, within⟩
  have less := (Array.getElem?_eq_some_iff.mp found).1
  simp [less]

theorem holdsPart_inherited (index : Nat) (outer : Interval) :
    Inherited (HoldsPart · index outer) := by
  rintro box input part ⟨interval, found, ordered, lower, upper⟩ nonempty within
  by_cases here : input = index
  · subst here
    have inner := within interval found
    exact .of_setIfInBounds found nonempty ⟨by omega, by omega⟩
  · exact ⟨interval, (Array.getElem?_setIfInBounds_ne here).trans found, ordered, lower, upper⟩

private theorem HoldsPart.halves (holds : box.HoldsPart index outer) {input : Nat}
    (width : (box.getD input .full).width ≠ 0) :
    HoldsPart (Problem.halves box input).1 index outer ∧
      HoldsPart (Problem.halves box input).2 index outer := by
  obtain ⟨interval, found, ordered, lower, upper⟩ := holds
  simp only [Problem.halves]
  by_cases here : input = index
  · subst here
    have held : box.getD input .full = interval := by
      simp [Array.getD_eq_getD_getElem?, found]
    rw [held] at width ⊢
    -- The width is a distance: it tells the bounds apart, but not their order.
    have wide : interval.lo < interval.hi := by
      simp only [Interval.width] at width
      omega
    obtain ⟨below, above⟩ := Interval.split_ordered wide
    constructor
    · refine .of_setIfInBounds found below ?_
      simp only [Interval.split] at above ⊢
      omega
    · refine .of_setIfInBounds found above ?_
      simp only [Interval.split] at below ⊢
      omega
  · exact ⟨⟨interval, (Array.getElem?_setIfInBounds_ne here).trans found, ordered, lower, upper⟩,
      ⟨interval, (Array.getElem?_setIfInBounds_ne here).trans found, ordered, lower, upper⟩⟩

theorem size_inherited (size : Nat) : Inherited fun box => box.size = size := by
  intro box index part kept _ _
  rw [Array.size_setIfInBounds, kept]

end Box

namespace Problem

variable {problem : Problem} {budget : Nat} {effort : Effort} {found : Box}

theorem size_of_solve (answer : problem.solve budget = (.sat found, effort)) :
    found.size = problem.circuit.inputs.size := by
  refine (keeps_of_explore (Box.size_inherited _) ?_ answer ?_).1
  · intro box input kept _
    simpa [halves] using kept
  · simp [Circuit.wholeBox]

theorem holdsPart_of_solve (answer : problem.solve budget = (.sat found, effort)) {index : Nat}
    {input : Input} (held : problem.circuit.inputs[index]? = some input)
    (ordered : input.domain.lo ≤ input.domain.hi) : found.HoldsPart index input.domain := by
  refine (keeps_of_explore (Box.holdsPart_inherited index input.domain) ?_ answer ?_).1
  · intro box other holds width
    exact holds.halves width
  · refine List.forall_mem_singleton.mpr ⟨input.domain, ?_, ordered, Int.le_refl _, Int.le_refl _⟩
    exact Circuit.wholeBox_getElem?.mpr ⟨input, held, rfl⟩

end Problem

namespace Domain

variable {domain : Domain}

theorem sort_valueOf (domain : Domain) (number : Int) :
    (domain.valueOf number).sort = domain.sort := by
  cases domain <;> rfl

theorem proper_of_contains {interval : Interval} (finite : domain.interval? = some interval)
    {value : Value} (contains : domain.contains value = true) : domain.Proper := by
  cases domain with
  | bool => trivial
  | int => simp [Domain.interval?] at finite
  | range least greatest =>
      cases value with
      | bool => simp [Domain.contains] at contains
      | int word =>
          simp only [Domain.contains, Bool.and_eq_true, decide_eq_true_eq] at contains
          exact Int64.le_trans contains.1 contains.2

end Domain

namespace Solver

/-- After a satisfiable answer the model gives every symbol of the assertions a
value of the right sort. The value is in the domain of the symbol exactly when
the domain is not empty. -/
theorem contains_model_iff_proper {solver checked : Solver} (reachable : solver.Reachable)
    (answered : solver.check = .ok (.sat, checked)) :
    ∃ model, checked.model = .ok model ∧
      ∀ formula ∈ solver.formulas, ∀ symbol, formula.Mentions symbol →
        ∃ value, model.get? symbol = some value ∧ value.sort = symbol.domain.sort ∧
          (symbol.domain.contains value = true ↔ symbol.domain.Proper) := by
  obtain ⟨problem, box, effort, compiled, solved, isModel⟩ := exists_found_of_check answered
  have represents := Problem.represents_ofFormulas
    (fun formula member => (reachable.consistent.assertable formula member).isBoolean) compiled
  refine ⟨_, isModel, fun formula member symbol mentions => ?_⟩
  obtain ⟨index, input, held, rfl⟩ := represents.exists_input member mentions
  have finite := represents.wellFormed.finite index input held
  have less : index < box.size := by
    rw [Problem.size_of_solve solved]
    exact (Array.getElem?_eq_some_iff.mp held).1
  refine ⟨_, Circuit.get?_valuation_of_getElem? represents.wellFormed held
    (Array.getElem?_eq_getElem less), Domain.sort_valueOf _ _, ?_, ?_⟩
  · exact Domain.proper_of_contains finite
  · intro proper
    obtain ⟨interval, found, ordered, lower, upper⟩ :=
      Problem.holdsPart_of_solve solved held (proper.ordered finite)
    rw [Array.getElem?_eq_getElem less, Option.some.injEq] at found
    rw [found]
    exact (Domain.contains_valueOf finite ⟨lower, Int.le_trans ordered upper⟩).1

private def nothing : Symbol := .current ⟨0, "x", .range 1 0⟩

private def flag : Symbol := .current ⟨1, "p", .bool⟩

/-- Intervals are compared by their ends, so the comparison counts as true where
they cross. -/
private def either : Formula :=
  .nary .or [.symbol flag, .binary .leq (.symbol nothing) (.int 0)]

private def asked : Solver := { new 0 ⟨10, 10⟩ with assertions := [⟨none, either⟩] }

private def reply : Option (Status × Option Value × Option Value × Option Value) :=
  asked.check.toOption.bind fun checked => checked.2.model.toOption.map fun model =>
    (checked.1, model.get? nothing, model.get? flag, (either.evaluate model).toOption)

private theorem reachable_asked : asked.Reachable :=
  .add (.new 0 ⟨10, 10⟩) (assert_eq_ok_iff.mpr ⟨by decide +kernel, rfl⟩)

private theorem check_asked : ∃ checked model, asked.check = .ok (.sat, checked) ∧
    checked.model = .ok model ∧ model.get? nothing = some (.int 1) ∧
    model.get? flag = some (.bool false) ∧ either.evaluate model = .ok (.bool false) := by
  have computed : reply = some (.sat, some (.int 1), some (.bool false), some (.bool false)) := by
    decide +kernel
  simp only [reply, Option.bind_eq_some_iff, Option.map_eq_some_iff, Outcome.toOption_eq_some_iff,
    Prod.mk.injEq] at computed
  obtain ⟨⟨status, checked⟩, answered, model, found, rfl, unvalued, closed, isFalse⟩ := computed
  exact ⟨checked, model, answered, found, unvalued, closed, isFalse⟩

theorem contains_model_iff_proper_asked :
    asked.Reachable ∧ ∃ checked model, asked.check = .ok (.sat, checked) ∧
      checked.model = .ok model ∧
      (∃ value, model.get? flag = some value ∧ flag.domain.contains value = true) ∧
      ∃ value, model.get? nothing = some value ∧ value.sort = .int ∧
        nothing.domain.contains value = false := by
  obtain ⟨checked, -, answered, -⟩ := check_asked
  obtain ⟨model, found, each⟩ := contains_model_iff_proper reachable_asked answered
  have member : either ∈ asked.formulas := List.mem_singleton_self _
  obtain ⟨truth, bound, -, inside⟩ := each either member flag (by simp [either])
  obtain ⟨value, unvalued, sort, outside⟩ := each either member nothing (by simp [either])
  refine ⟨reachable_asked, checked, model, answered, found, ⟨truth, bound, ?_⟩,
    value, unvalued, sort, ?_⟩
  · exact inside.mpr trivial
  · rw [← Bool.not_eq_true, outside]
    decide

/-- An empty range gets a value, and the answer is satisfiable although the
assertion is false under the model. -/
theorem check_sat_of_empty_range :
    asked.Reachable ∧ either ∈ asked.formulas ∧ either.Mentions nothing ∧
      (∀ value, nothing.domain.contains value = false) ∧
      ∃ checked model, asked.check = .ok (.sat, checked) ∧ checked.model = .ok model ∧
        model.get? nothing = some (.int 1) ∧ either.evaluate model = .ok (.bool false) := by
  obtain ⟨checked, model, answered, found, unvalued, -, isFalse⟩ := check_asked
  refine ⟨reachable_asked, List.mem_singleton_self _, by simp [either], ?_,
    checked, model, answered, found, unvalued, isFalse⟩
  intro value
  rw [← Bool.not_eq_true]
  intro contains
  exact absurd (Domain.proper_of_contains rfl contains) (by decide)

end Solver

end SymbolicSafety
