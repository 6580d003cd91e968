import SymbolicSafety.Proofs.Interpolation

namespace SymbolicSafety

/-! What a solver takes. A Boolean formula without primes over finite domains has
a circuit, so it can be asserted and checked. After a refutation the only reason
not to give an interpolant is a limit of the search. -/

namespace Formula

/-- There are no primes, and the domains are finite and not empty. -/
structure Compilable (formula : Formula) : Prop where
  primeFree : formula.PrimeFree
  proper : formula.Proper

/-- There are no primes, and the domains are finite. They may be empty. -/
structure Bounded (formula : Formula) : Prop where
  primeFree : formula.PrimeFree
  finite : ∀ symbol, formula.Mentions symbol →
    ∃ interval, symbol.domain.interval? = some interval

theorem Bounded.child {formula child : Formula} (bounded : formula.Bounded)
    (member : child ∈ formula.children) : child.Bounded where
  primeFree := bounded.primeFree.child member
  finite symbol mentions := bounded.finite symbol (mentions.of_child member)

theorem Bounded.conjunct {formula conjunct : Formula} (bounded : formula.Bounded)
    (member : conjunct ∈ formula.conjuncts) : conjunct.Bounded := by
  unfold Formula.conjuncts at member
  split at member
  · exact bounded.child member
  · obtain rfl := List.mem_singleton.mp member
    exact bounded

structure Askable (formula : Formula) : Prop extends formula.Compilable where
  typed : formula.HasSort .bool

theorem askable_bool (value : Bool) : (Formula.bool value).Askable where
  primeFree := primeFree_bool value
  proper := by simp [Proper]
  typed := .bool value

theorem Askable.junction {op : NaryOp} {neutral : Bool} {operands : List Formula}
    (kind : op.sort = .bool) (each : ∀ operand ∈ operands, operand.Askable) :
    (Formula.junction op neutral operands).Askable where
  typed := .junction kind fun operand member => (each operand member).typed
  primeFree := .junction fun operand member => (each operand member).primeFree
  proper symbol mentions := by
    obtain ⟨operand, member, mentions⟩ := mentions_of_junction mentions
    exact (each operand member).proper symbol mentions

theorem Askable.mkNot {formula : Formula} (askable : formula.Askable) :
    (Formula.mkNot formula).Askable where
  typed := askable.typed.mkNot
  primeFree := askable.primeFree.mkNot
  proper symbol mentions := askable.proper symbol ((mkNot_mentions_iff formula symbol).mp mentions)

theorem PrimeFree.hasPrime_eq_false {formula : Formula} (free : formula.PrimeFree) :
    formula.hasPrime = false := by
  rw [← Bool.not_eq_true, hasPrime_iff]
  rintro ⟨operand, occurs⟩
  exact free operand occurs

end Formula

/-! ## Circuits -/

theorem Domain.Proper.exists_interval {domain : Domain} (proper : domain.Proper) :
    ∃ interval, domain.interval? = some interval := by
  cases domain with
  | bool => exact ⟨_, rfl⟩
  | int => exact absurd proper id
  | range least greatest => exact ⟨_, rfl⟩

theorem Formula.Compilable.bounded {formula : Formula} (compilable : formula.Compilable) :
    formula.Bounded :=
  ⟨compilable.primeFree, fun symbol mentions =>
    (compilable.proper symbol mentions).exists_interval⟩

namespace Circuit

theorem exists_addSymbol {symbol : Symbol} {interval : Interval}
    (finite : symbol.domain.interval? = some interval) (circuit : Circuit) :
    ∃ larger gate, circuit.addSymbol symbol = .ok (larger, gate) := by
  unfold addSymbol
  split
  · exact ⟨_, _, rfl⟩
  · simp only [finite]
    exact ⟨_, _, rfl⟩

theorem exists_addAll {operands : List Formula}
    (each : ∀ operand ∈ operands, ∀ circuit, ∃ larger gate,
      addFormula operand circuit = .ok (larger, gate)) (circuit : Circuit) :
    ∃ larger gates, addAll operands circuit = .ok (larger, gates) := by
  induction operands generalizing circuit with
  | nil => exact ⟨_, _, rfl⟩
  | cons head rest induction =>
      obtain ⟨headCase, restCases⟩ := List.forall_mem_cons.mp each
      obtain ⟨middle, gate, addedHead⟩ := headCase circuit
      obtain ⟨larger, gates, addedRest⟩ := induction restCases middle
      exact ⟨larger, gate :: gates, by simp [addAll, addedHead, addedRest]⟩

theorem exists_addFormula {formula : Formula} (bounded : formula.Bounded)
    (circuit : Circuit) : ∃ larger gate, addFormula formula circuit = .ok (larger, gate) := by
  induction formula generalizing circuit with
  | bool value => exact ⟨_, _, rfl⟩
  | int value => exact ⟨_, _, rfl⟩
  | symbol name =>
      obtain ⟨interval, finite⟩ := bounded.finite name ((Formula.mentions_symbol _ _).mpr rfl)
      exact exists_addSymbol finite circuit
  | unary op operand operandCase =>
      have ofOperand : operand.Bounded := bounded.child List.mem_cons_self
      obtain ⟨middle, gate, added⟩ := operandCase ofOperand circuit
      cases op with
      | prime => exact absurd bounded.primeFree (Formula.not_primeFree_prime operand)
      | not | neg =>
          simp only [addFormula, added]
          exact ⟨_, _, rfl⟩
  | binary op left right leftCase rightCase =>
      have ofLeft : left.Bounded := bounded.child (by simp [Formula.children])
      have ofRight : right.Bounded := bounded.child (by simp [Formula.children])
      obtain ⟨middle, first, addedLeft⟩ := leftCase ofLeft circuit
      obtain ⟨larger, second, addedRight⟩ := rightCase ofRight
        (if op = .implies then middle.push (.not first) else (middle, first)).1
      simp only [addFormula, addedLeft, bind, Except.bind, addedRight]
      exact ⟨_, _, rfl⟩
  | nary op operands operandCases =>
      obtain ⟨middle, gates, added⟩ := exists_addAll (fun operand member =>
        operandCases operand member (bounded.child member)) circuit
      simp only [addFormula, added]
      exact ⟨_, _, rfl⟩
  | ite condition consequent alternative conditionCase consequentCase alternativeCase =>
      have ofCondition : condition.Bounded := bounded.child (by simp [Formula.children])
      have ofConsequent : consequent.Bounded := bounded.child (by simp [Formula.children])
      have ofAlternative : alternative.Bounded := bounded.child (by simp [Formula.children])
      obtain ⟨middle, first, addedCondition⟩ := conditionCase ofCondition circuit
      obtain ⟨further, second, addedConsequent⟩ := consequentCase ofConsequent middle
      obtain ⟨larger, third, addedAlternative⟩ := alternativeCase ofAlternative further
      simp only [addFormula, addedCondition, bind, Except.bind, addedConsequent, addedAlternative]
      exact ⟨_, _, rfl⟩

end Circuit

namespace Problem

theorem exists_foldlM {conjuncts : List Formula}
    (each : ∀ conjunct ∈ conjuncts, conjunct.Bounded) (problem : Problem) :
    ∃ larger, conjuncts.foldlM addConjunct problem = .ok larger := by
  induction conjuncts generalizing problem with
  | nil => exact ⟨problem, rfl⟩
  | cons conjunct rest induction =>
      obtain ⟨first, later⟩ := List.forall_mem_cons.mp each
      obtain ⟨larger, gate, added⟩ := Circuit.exists_addFormula first problem.circuit
      simp only [List.foldlM_cons, addConjunct, added]
      exact induction later _

theorem exists_ofFormulas {formulas : List Formula}
    (each : ∀ formula ∈ formulas, formula.Bounded) :
    ∃ problem, ofFormulas formulas = .ok problem := by
  refine exists_foldlM (fun conjunct member => ?_) empty
  obtain ⟨formula, inFormulas, inConjuncts⟩ := List.mem_flatMap.mp member
  exact (each formula inFormulas).conjunct inConjuncts

end Problem

/-! ## Answers -/

theorem Formula.Askable.assertable {formula : Formula} (askable : formula.Askable) :
    Solver.Assertable formula := by
  obtain ⟨problem, compiled⟩ :=
    Problem.exists_ofFormulas (List.forall_mem_singleton.mpr askable.toCompilable.bounded)
  have inferred := (formula.inferSort_eq_ok_iff .bool).mpr askable.typed
  simp [Solver.Assertable, Solver.demandAssertable, inferred, compiled,
    askable.primeFree.hasPrime_eq_false]

namespace Solver

variable {solver : Solver}

theorem exists_assert {formula : Formula} (askable : formula.Askable) (solver : Solver)
    (marker : Option Marker) : ∃ added, solver.assert marker formula = .ok added :=
  ⟨_, assert_eq_ok_iff.mpr ⟨askable.assertable, rfl⟩⟩

theorem exists_check (each : ∀ formula ∈ solver.formulas, formula.Bounded) :
    ∃ status checked, solver.check = .ok (status, checked) := by
  obtain ⟨problem, compiled⟩ := Problem.exists_ofFormulas each
  simp only [check, compiled]
  exact ⟨_, _, rfl⟩

theorem interpolant_cases {pattern : Pattern}
    (owned : solver.owns pattern.first = true ∧ solver.owns pattern.second = true)
    (refuted : solver.status = some .unsat) (inside : solver.outsiders pattern = [])
    (each : ∀ formula ∈ solver.group pattern.first, formula.Compilable) :
    (∃ interpolant answered, solver.interpolant pattern = .ok (interpolant, answered)) ∨
      ∃ what, solver.interpolant pattern = .error (.exhausted what) := by
  obtain ⟨problem, compiled⟩ :=
    Problem.exists_ofFormulas fun formula member => (each formula member).bounded
  simp only [interpolant, owned, refuted, inside, compiled, Outcome.mapError_ok, Outcome.ok_bind,
    Bool.and_self, Bool.not_true, Bool.false_eq_true, if_false, ne_eq, not_true_eq_false]
  cases problem.project (sharedInputs problem (solver.group pattern.second)) solver.limits with
  | error what => exact .inr ⟨what, rfl⟩
  | ok cubes => exact .inl ⟨_, _, rfl⟩

end Solver

end SymbolicSafety
