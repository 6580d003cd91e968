import SymbolicSafety.Proofs.CubeFormula
import SymbolicSafety.Proofs.Projection
import SymbolicSafety.Proofs.SolverAnswers

namespace SymbolicSafety

/-! The interpolant between two groups of assertions is exactly the projection
of the first group onto the symbols that both groups mention. -/

/-- Values within the domains never make the arithmetic of the formula
overflow. -/
def Formula.StaysInRange (formula : Formula) : Prop :=
  ∀ valuation : Valuation, valuation.Admits formula →
    ∀ fault, formula.evaluate valuation ≠ .error (.overflow fault)

theorem Formula.staysInRange_of_evaluatesTo {formula : Formula}
    (evaluates : ∀ valuation : Valuation, valuation.Admits formula →
      ∃ value, formula.EvaluatesTo valuation value) : formula.StaysInRange := by
  intro valuation admits fault overflow
  obtain ⟨value, evaluated⟩ := evaluates valuation admits
  rw [(Formula.evaluate_eq_ok_iff ..).mpr evaluated] at overflow
  contradiction

theorem Valuation.Admits.exists_evaluatesTo {valuation : Valuation} {formula : Formula}
    (admits : valuation.Admits formula) (symbol : Symbol) (mentions : formula.Mentions symbol)
    {least greatest : Int64} (ranged : symbol.domain = .range least greatest) :
    ∃ word : Int64, (Formula.symbol symbol).EvaluatesTo valuation (.int word) ∧
      least.toInt ≤ word.toInt ∧ word.toInt ≤ greatest.toInt := by
  obtain ⟨value, bound, contains⟩ := admits symbol mentions
  rw [ranged] at contains
  cases value with
  | bool holds => simp [Domain.contains] at contains
  | int word =>
      simp only [Domain.contains, Bool.and_eq_true, decide_eq_true_eq,
        Int64.le_iff_toInt_le] at contains
      exact ⟨word, .symbol bound, contains⟩

/-- The valuation gives each of the symbols a value of its domain. -/
def Valuation.Grounds (valuation : Valuation) (symbols : Symbol → Prop) : Prop :=
  ∀ symbol, symbols symbol →
    ∃ value, valuation.get? symbol = some value ∧ symbol.domain.contains value = true

namespace Problem

variable {problem : Problem} {formulas : List Formula} {onto : List Nat} {box found : Box}
  {point valuation : Valuation}

def inputsAt (problem : Problem) (onto : List Nat) : List Input :=
  onto.filterMap fun index => problem.circuit.inputs[index]?

theorem mem_inputsAt {input : Input} : input ∈ problem.inputsAt onto ↔
    ∃ index ∈ onto, problem.circuit.inputs[index]? = some input := by
  simp [inputsAt]

def Agree (problem : Problem) (onto : List Nat) (left right : Valuation) : Prop :=
  ∀ input ∈ problem.inputsAt onto, left.get? input.symbol = right.get? input.symbol

/-! ## Completing a point -/

private def modelOf (problem : Problem) (found : Box) : Valuation :=
  SortedMap.ofList (problem.circuit.valuation found)

private def complete (problem : Problem) (onto : List Nat) (point : Valuation) (found : Box) :
    Valuation :=
  SortedMap.glue (fun symbol => (problem.inputsAt onto).any fun input => input.symbol = symbol)
    point (problem.modelOf found)

private theorem get?_complete (problem : Problem) (onto : List Nat) (point : Valuation)
    (found : Box) (symbol : Symbol) :
    (∃ input ∈ problem.inputsAt onto, input.symbol = symbol ∧
      (problem.complete onto point found).get? symbol = point.get? symbol) ∨
    ((∀ input ∈ problem.inputsAt onto, input.symbol ≠ symbol) ∧
      (problem.complete onto point found).get? symbol = (problem.modelOf found).get? symbol) := by
  rw [complete, SortedMap.get?_glue]
  by_cases projected : ∃ input ∈ problem.inputsAt onto, input.symbol = symbol
  · obtain ⟨input, member, same⟩ := projected
    refine .inl ⟨input, member, same, if_pos ?_⟩
    exact List.any_eq_true.mpr ⟨input, member, by simpa using same⟩
  · have apart : ∀ input ∈ problem.inputsAt onto, input.symbol ≠ symbol :=
      fun input member same => projected ⟨input, member, same⟩
    refine .inr ⟨apart, if_neg ?_⟩
    simpa using apart

private def Within (problem : Problem) (onto : List Nat) (box : Box) (point : Valuation) : Prop :=
  ∀ index ∈ onto, ∀ input, problem.circuit.inputs[index]? = some input →
    ∃ value, point.get? input.symbol = some value ∧
      input.symbol.domain.contains value = true ∧ value.number ∈ box.getD index .full

section Completion

variable (boolean : ∀ formula ∈ formulas, formula.IsBoolean)
  (compiled : ofFormulas formulas = .ok problem) (completed : problem.Completed onto box found)
  (within : problem.Within onto box point)

include boolean compiled completed within

private theorem admits_complete {formula : Formula} (member : formula ∈ formulas) :
    (problem.complete onto point found).Admits formula := by
  intro symbol mentions
  have model := (admits_valuation boolean compiled completed.isBox_found).2 formula member
  rcases get?_complete problem onto point found symbol with
    ⟨input, projected, rfl, same⟩ | ⟨-, same⟩
  · obtain ⟨index, inOnto, held⟩ := mem_inputsAt.mp projected
    obtain ⟨value, bound, contains, -⟩ := within index inOnto input held
    exact ⟨value, same.trans bound, contains⟩
  · rw [same]
    exact model symbol mentions

private theorem inside_complete :
    problem.circuit.Inside box (problem.complete onto point found).number := by
  intro index input held
  have wellFormed := (represents_ofFormulas boolean compiled).wellFormed
  rcases get?_complete problem onto point found input.symbol with
    ⟨input', projected, sameSymbol, same⟩ | ⟨-, same⟩
  · obtain ⟨index', inOnto, held'⟩ := mem_inputsAt.mp projected
    obtain rfl := wellFormed.distinct _ _ _ _ held' held sameSymbol
    obtain ⟨value, bound, -, member⟩ := within index' inOnto input held
    rw [Valuation.number_of_get? (same.trans bound)]
    exact member
  · obtain ⟨value, bound, -, member⟩ :=
      Circuit.get?_valuation wellFormed completed.isBox_found held
    rw [Valuation.number_of_get? (same.trans bound)]
    exact completed.refines.mem member

/-- Where the projected inputs of a conjunct are fixed, completing the point
changes nothing of the model that the conjunct can see. -/
private theorem get?_complete_of_fixed {conjunct : Formula} {root : Root}
    (rootOf : problem.circuit.RootOf conjunct root)
    (fixed : ∀ input ∈ root.inputs, input ∈ onto → (box.getD input .full).width = 0)
    {symbol : Symbol} (mentions : conjunct.Mentions symbol) :
    (problem.complete onto point found).get? symbol = (problem.modelOf found).get? symbol := by
  have wellFormed := (represents_ofFormulas boolean compiled).wellFormed
  rcases get?_complete problem onto point found symbol with
    ⟨input, projected, rfl, same⟩ | ⟨-, same⟩
  · obtain ⟨index, inOnto, held⟩ := mem_inputsAt.mp projected
    have width := fixed index ((rootOf.inputs index).mpr ⟨input, held, mentions⟩) inOnto
    obtain ⟨value, bound, contains, member⟩ := within index inOnto input held
    obtain ⟨value', bound', contains', member'⟩ :=
      Circuit.get?_valuation wellFormed completed.isBox_found held
    have member'' := completed.refines.mem member'
    have sameNumber : value.number = value'.number := by
      simp only [Interval.width, Interval.mem_iff] at width member member''
      omega
    have sameValue : value = value' :=
      Value.eq_of_number_eq ((Domain.sort_eq_of_contains contains).trans
        (Domain.sort_eq_of_contains contains').symm) sameNumber
    rw [same, bound, sameValue]
    exact bound'.symm
  · exact same

private theorem Completed.exists_solution
    (inRange : ∀ formula ∈ formulas, formula.StaysInRange) :
    ∃ valuation : Valuation, problem.Agree onto valuation point ∧ valuation.Solves formulas := by
  refine ⟨problem.complete onto point found,
    fun input member => ?_, fun formula member => ?_⟩
  · rcases get?_complete problem onto point found input.symbol with
      ⟨-, -, -, same⟩ | ⟨apart, -⟩
    · exact same
    · exact absurd rfl (apart input member)
  · have admits := admits_complete boolean compiled completed within member
    refine ⟨admits, (evaluate_of_conjuncts boolean compiled member admits.suits ?_).resolve_right
      fun ⟨fault, overflow⟩ => inRange formula member _ admits fault overflow⟩
    intro conjunct inConjuncts root inRoots rootOf
    rcases completed.decided root inRoots with isTrue | ⟨isTrue, fixed⟩
    · exact not_false_of_isTrue boolean compiled completed.isBox
        (inside_complete boolean compiled completed within) member admits.suits inConjuncts rootOf
        isTrue
    · -- The conjunct sees only what the model of the found box binds.
      have same := Formula.evaluate_congr conjunct fun symbol mentions =>
        get?_complete_of_fixed boolean compiled completed within rootOf fixed mentions
      obtain ⟨inside, model⟩ := admits_valuation boolean compiled completed.isBox_found
      rw [← Formula.evaluate_eq_ok_iff, same, Formula.evaluate_eq_ok_iff]
      exact not_false_of_isTrue boolean compiled completed.isBox_found inside member
        (model formula member).suits inConjuncts rootOf isTrue

end Completion

/-! ## Projections as formulas -/

def Indexes (problem : Problem) (onto : List Nat) : Prop :=
  ∀ index ∈ onto, index < problem.circuit.inputs.size

private theorem inputsAt_cons {head : Nat} {rest : List Nat}
    (less : head < problem.circuit.inputs.size) :
    problem.inputsAt (head :: rest) = problem.circuit.inputs[head] :: problem.inputsAt rest := by
  simp [inputsAt, less]

private theorem length_inputsAt (valid : problem.Indexes onto) :
    (problem.inputsAt onto).length = onto.length := by
  induction onto with
  | nil => rfl
  | cons head rest induction =>
      obtain ⟨less, valid⟩ := List.forall_mem_cons.mp valid
      rw [inputsAt_cons less, List.length_cons, List.length_cons, induction valid]

private theorem inputsAt_getElem? (valid : problem.Indexes onto) (dimension : Nat) :
    (problem.inputsAt onto)[dimension]? =
      onto[dimension]?.bind fun index => problem.circuit.inputs[index]? := by
  induction onto generalizing dimension with
  | nil => simp [inputsAt]
  | cons head rest induction =>
      obtain ⟨less, valid⟩ := List.forall_mem_cons.mp valid
      rw [inputsAt_cons less]
      cases dimension with
      | zero => simp [less]
      | succ dimension => simpa using induction valid dimension

private theorem contains_projected_iff (valid : problem.Indexes onto) :
    Cube.Contains (projected onto box) (Cube.pointOf point (problem.inputsAt onto)) ↔
      ∀ index ∈ onto, ∀ input, problem.circuit.inputs[index]? = some input →
        point.number input.symbol ∈ box.getD index .full := by
  constructor
  · intro contains index member input held
    obtain ⟨dimension, position⟩ := List.mem_iff_getElem?.mp member
    refine contains dimension _ _ (by simp [projected, position]) ?_
    simp [Cube.pointOf, inputsAt_getElem? valid, position, held]
  · intro inside dimension interval number found atPoint
    simp only [projected, List.getElem?_map, Option.map_eq_some_iff] at found
    obtain ⟨index, position, rfl⟩ := found
    simp only [Cube.pointOf, List.getElem?_map, inputsAt_getElem? valid, position,
      Option.bind_some, Option.map_eq_some_iff] at atPoint
    obtain ⟨input, held, rfl⟩ := atPoint
    exact inside index (List.mem_of_getElem? position) input held

private theorem fits_projected (wellFormed : problem.circuit.WellFormed)
    (valid : problem.Indexes onto) (isBox : problem.circuit.IsBox box) :
    Cube.Fits (problem.inputsAt onto) (projected onto box) where
  length := by simp [projected, length_inputsAt valid]
  within dimension input interval held found := by
    simp only [projected, List.getElem?_map, Option.map_eq_some_iff] at found
    obtain ⟨index, position, rfl⟩ := found
    rw [inputsAt_getElem? valid, position, Option.bind_some] at held
    have whole : problem.circuit.wholeBox[index]? = some input.domain :=
      Circuit.wholeBox_getElem?.mpr ⟨input, held, rfl⟩
    have less : index < box.size := by
      rw [isBox.size]
      exact (Array.getElem?_eq_some_iff.mp whole).1
    have bound : box[index]? = some box[index] := by simp [less]
    have part := isBox.within index _ _ whole bound
    rw [Array.getD_eq_getD_getElem?, bound, Option.getD_some]
    exact ⟨Domain.least_le_of_interval (wellFormed.finite index input held), part.1,
      isBox.ordered index _ bound, part.2⟩

section Projected

variable {limits : Limits} {cubes : Array Cube} {effort : Effort}
  (boolean : ∀ formula ∈ formulas, formula.IsBoolean)
  (compiled : ofFormulas formulas = .ok problem)
  (proper : ∀ formula ∈ formulas, formula.Proper) (valid : problem.Indexes onto)
  (result : problem.project onto limits = .ok (cubes, effort))
include boolean compiled proper valid result

theorem fits_project : ∀ cube ∈ cubes.toList, Cube.Fits (problem.inputsAt onto) cube := by
  have wellFormed := (represents_ofFormulas boolean compiled).wellFormed
  obtain ⟨kept, equal, completed, -⟩ := enumerate_spec wellFormed result
    (List.forall_mem_singleton.mpr (isBox_of_proper boolean compiled proper))
  simp only [List.nil_append] at equal
  rw [equal]
  refine List.forall_mem_map.mpr fun box member => ?_
  obtain ⟨found, completes⟩ := completed box member
  exact fits_projected wellFormed valid completes.isBox

/-- The cubes of a projection cover exactly the points that extend to a
solution. -/
theorem covered_project_iff (inRange : ∀ formula ∈ formulas, formula.StaysInRange)
    {point : Valuation} (grounded : Cube.Grounded point (problem.inputsAt onto)) :
    Cube.Covered cubes.toList (Cube.pointOf point (problem.inputsAt onto)) ↔
      ∃ valuation : Valuation, problem.Agree onto valuation point ∧
        valuation.Solves formulas := by
  have wellFormed := (represents_ofFormulas boolean compiled).wellFormed
  obtain ⟨kept, equal, completed, complete⟩ := enumerate_spec wellFormed result
    (List.forall_mem_singleton.mpr (isBox_of_proper boolean compiled proper))
  simp only [List.nil_append] at equal
  rw [equal]
  constructor
  · rintro ⟨cube, member, contains⟩
    obtain ⟨box, inKept, rfl⟩ := List.mem_map.mp member
    obtain ⟨found, completes⟩ := completed box inKept
    rw [contains_projected_iff valid] at contains
    refine completes.exists_solution boolean compiled ?_ inRange
    intro index inOnto input held
    obtain ⟨-, value, bound, inDomain⟩ :=
      grounded input (mem_inputsAt.mpr ⟨index, inOnto, held⟩)
    refine ⟨value, bound, inDomain, ?_⟩
    rw [← Valuation.number_of_get? bound]
    exact contains index inOnto input held
  · rintro ⟨valuation, agree, solves⟩
    obtain ⟨solved, inside⟩ := solved_of_solves boolean compiled solves
    obtain ⟨box, inKept, insideBox⟩ :=
      complete valuation.number solved _ List.mem_cons_self inside
    refine ⟨_, List.mem_map.mpr ⟨box, inKept, rfl⟩, (contains_projected_iff valid).mpr ?_⟩
    intro index inOnto input held
    have same := agree input (mem_inputsAt.mpr ⟨index, inOnto, held⟩)
    have sameNumber : point.number input.symbol = valuation.number input.symbol := by
      rw [Valuation.number, Valuation.number, same]
    rw [sameNumber]
    exact insideBox index input held

end Projected

end Problem

namespace Solver

variable {solver answered : Solver} {pattern : Pattern} {interpolant : Interpolant}

/-! ## Groups -/

theorem mem_formulas_of_mem_group {marker : Marker} {formula : Formula}
    (member : formula ∈ solver.group marker) : formula ∈ solver.formulas := by
  obtain ⟨assertion, inGroup, rfl⟩ := List.mem_map.mp member
  exact List.mem_map.mpr ⟨assertion, (List.mem_filter.mp inGroup).1, rfl⟩

theorem mem_group_of_mem_formulas (covers : solver.outsiders pattern = []) {formula : Formula}
    (member : formula ∈ solver.formulas) :
    formula ∈ solver.group pattern.first ∨ formula ∈ solver.group pattern.second := by
  obtain ⟨assertion, asserted, rfl⟩ := List.mem_map.mp member
  have grouped {marker : Marker}
      (belongs : assertion.marker = none ∨ assertion.marker = some marker) :
      assertion.formula ∈ solver.group marker :=
    List.mem_map.mpr ⟨assertion, List.mem_filter.mpr ⟨asserted, by simpa using belongs⟩, rfl⟩
  cases marked : assertion.marker with
  | none => exact .inl (grouped (.inl marked))
  | some marker =>
      have mentioned : pattern.mentions marker = true := by
        rw [outsiders, List.filter_eq_nil_iff] at covers
        simpa using covers marker (List.mem_filterMap.mpr ⟨assertion, asserted, marked⟩)
      simp only [Pattern.mentions, Bool.or_eq_true, decide_eq_true_eq] at mentioned
      rcases mentioned with rfl | rfl
      · exact .inl (grouped (.inr marked))
      · exact .inr (grouped (.inr marked))

/-- The symbol occurs in both groups of the pattern. -/
def Shares (solver : Solver) (pattern : Pattern) (symbol : Symbol) : Prop :=
  (∃ formula ∈ solver.group pattern.first, formula.Mentions symbol) ∧
    ∃ formula ∈ solver.group pattern.second, formula.Mentions symbol

theorem mem_sharedSymbols (others : List Formula) (set : SortedSet Symbol)
    (symbol : Symbol) :
    symbol ∈ (others.foldl (fun symbols formula =>
      SortedSet.addAll symbols formula.symbols.keys) set).keys ↔
      (∃ formula ∈ others, formula.Mentions symbol) ∨ symbol ∈ set.keys := by
  induction others generalizing set with
  | nil => simp
  | cons head rest induction =>
      rw [List.foldl_cons, induction, SortedSet.mem_keys_addAll, Formula.mem_symbols_iff]
      simp [or_assoc, or_left_comm]

theorem mem_sharedInputs {problem : Problem} {others : List Formula} {index : Nat} :
    index ∈ sharedInputs problem others ↔ ∃ input, problem.circuit.inputs[index]? = some input ∧
      ∃ formula ∈ others, formula.Mentions input.symbol := by
  rw [sharedInputs, List.mem_filter, List.mem_range]
  cases held : problem.circuit.inputs[index]? with
  | none => simp
  | some input =>
      have less := (Array.getElem?_eq_some_iff.mp held).1
      simp [less, SortedMap.contains_iff, mem_sharedSymbols]

theorem exists_inputsAt_iff {problem : Problem}
    (boolean : ∀ formula ∈ solver.group pattern.first, formula.IsBoolean)
    (compiled : Problem.ofFormulas (solver.group pattern.first) = .ok problem) (symbol : Symbol) :
    (∃ input ∈ problem.inputsAt (sharedInputs problem (solver.group pattern.second)),
      input.symbol = symbol) ↔ solver.Shares pattern symbol := by
  have represents := Problem.represents_ofFormulas boolean compiled
  constructor
  · rintro ⟨input, member, rfl⟩
    obtain ⟨index, shared, held⟩ := Problem.mem_inputsAt.mp member
    obtain ⟨input', held', inSecond⟩ := mem_sharedInputs.mp shared
    obtain rfl := Option.some.inj (held.symm.trans held')
    obtain ⟨conjunct, inFlat, mentions⟩ := represents.named input (Array.mem_of_getElem? held)
    obtain ⟨formula, inFirst, inConjuncts⟩ := List.mem_flatMap.mp inFlat
    exact ⟨⟨formula, inFirst,
      (formula.mentions_iff_conjuncts _).mpr ⟨conjunct, inConjuncts, mentions⟩⟩, inSecond⟩
  · rintro ⟨⟨formula, inFirst, mentions⟩, inSecond⟩
    obtain ⟨conjunct, inConjuncts, mentions⟩ := (formula.mentions_iff_conjuncts _).mp mentions
    obtain ⟨root, -, rootOf⟩ :=
      represents.rooted conjunct (List.mem_flatMap.mpr ⟨formula, inFirst, inConjuncts⟩)
    obtain ⟨index, input, held, rfl⟩ := rootOf.realized.exists_input mentions
    exact ⟨input, Problem.mem_inputsAt.mpr
      ⟨index, mem_sharedInputs.mpr ⟨input, held, inSecond⟩, held⟩, rfl⟩

/-! ## The strongest interpolant -/

/-- Some values within the domains make the first group true and are those of
the point on the shared symbols. -/
def Completes (solver : Solver) (pattern : Pattern) (point : Valuation) : Prop :=
  ∃ valuation : Valuation,
    (∀ symbol, solver.Shares pattern symbol → valuation.get? symbol = point.get? symbol) ∧
    valuation.Solves (solver.group pattern.first)

theorem label_first (result : solver.interpolant pattern = .ok (interpolant, answered)) :
    interpolant.label? pattern.first = some interpolant.formula := by
  obtain ⟨-, -, ⟨problem, cubes, effort, -, -, rfl⟩, -⟩ := interpolant_eq_ok result
  simp [Interpolant.label?]

theorem shares_of_interpolant (consistent : solver.Consistent)
    (result : solver.interpolant pattern = .ok (interpolant, answered)) {symbol : Symbol}
    (mentions : interpolant.formula.Mentions symbol) : solver.Shares pattern symbol := by
  obtain ⟨-, -, ⟨problem, cubes, effort, compiled, -, rfl⟩, -⟩ := interpolant_eq_ok result
  obtain ⟨input, member, same⟩ := Cube.mentions_of_toFormula mentions
  exact (exists_inputsAt_iff (fun formula member =>
    (consistent.assertable formula (mem_formulas_of_mem_group member)).isBoolean)
    compiled symbol).mp ⟨input, member, same.symm⟩

theorem primeFree_interpolant (result : solver.interpolant pattern = .ok (interpolant, answered)) :
    interpolant.formula.PrimeFree := by
  obtain ⟨-, -, ⟨problem, cubes, effort, -, -, rfl⟩, -⟩ := interpolant_eq_ok result
  exact Cube.primeFree_toFormula _ _

theorem hasSort_interpolant (result : solver.interpolant pattern = .ok (interpolant, answered)) :
    interpolant.formula.HasSort .bool := by
  obtain ⟨-, -, ⟨problem, cubes, effort, -, -, rfl⟩, -⟩ := interpolant_eq_ok result
  exact Cube.hasSort_toFormula _ _

theorem indexes_sharedInputs (problem : Problem) (others : List Formula) :
    problem.Indexes (sharedInputs problem others) := by
  intro index member
  obtain ⟨input, held, -⟩ := mem_sharedInputs.mp member
  exact (Array.getElem?_eq_some_iff.mp held).1

private theorem grounded_sharedInputs {problem : Problem}
    (boolean : ∀ formula ∈ solver.group pattern.first, formula.IsBoolean)
    (compiled : Problem.ofFormulas (solver.group pattern.first) = .ok problem) {point : Valuation}
    (grounds : point.Grounds (solver.Shares pattern)) :
    Cube.Grounded point
      (problem.inputsAt (sharedInputs problem (solver.group pattern.second))) := by
  intro input member
  obtain ⟨index, -, held⟩ := Problem.mem_inputsAt.mp member
  exact ⟨(Problem.represents_ofFormulas boolean compiled).wellFormed.finite index input held,
    grounds input.symbol ((exists_inputsAt_iff boolean compiled _).mp ⟨input, member, rfl⟩)⟩

theorem exists_evaluatesTo_interpolant (consistent : solver.Consistent)
    (proper : ∀ formula ∈ solver.formulas, formula.Proper)
    (result : solver.interpolant pattern = .ok (interpolant, answered)) {point : Valuation}
    (grounds : point.Grounds (solver.Shares pattern)) :
    ∃ holds, interpolant.formula.EvaluatesTo point (.bool holds) := by
  obtain ⟨-, -, ⟨problem, cubes, effort, compiled, projected, rfl⟩, -⟩ := interpolant_eq_ok result
  have boolean : ∀ formula ∈ solver.group pattern.first, formula.IsBoolean :=
    fun formula member =>
      (consistent.assertable formula (mem_formulas_of_mem_group member)).isBoolean
  have fits := Problem.fits_project boolean compiled
    (fun formula member => proper formula (mem_formulas_of_mem_group member))
    (indexes_sharedInputs problem _) projected
  exact Cube.toFormula_decided (Cube.compress_merges fits).fits
    (grounded_sharedInputs boolean compiled grounds)

theorem evaluatesTo_interpolant (consistent : solver.Consistent)
    (proper : ∀ formula ∈ solver.formulas, formula.Proper)
    (inRange : ∀ formula ∈ solver.formulas, formula.StaysInRange)
    (result : solver.interpolant pattern = .ok (interpolant, answered)) {point : Valuation}
    (grounds : point.Grounds (solver.Shares pattern)) :
    (∃ holds, interpolant.formula.EvaluatesTo point (.bool holds)) ∧
      (interpolant.formula.EvaluatesTo point (.bool true) ↔ solver.Completes pattern point) := by
  refine ⟨exists_evaluatesTo_interpolant consistent proper result grounds, ?_⟩
  obtain ⟨-, -, ⟨problem, cubes, effort, compiled, projected, rfl⟩, -⟩ := interpolant_eq_ok result
  have boolean : ∀ formula ∈ solver.group pattern.first, formula.IsBoolean :=
    fun formula member =>
      (consistent.assertable formula (mem_formulas_of_mem_group member)).isBoolean
  have properFirst : ∀ formula ∈ solver.group pattern.first, formula.Proper :=
    fun formula member => proper formula (mem_formulas_of_mem_group member)
  have named := exists_inputsAt_iff boolean compiled
  have valid := indexes_sharedInputs problem (solver.group pattern.second)
  have grounded := grounded_sharedInputs boolean compiled grounds
  obtain ⟨fitsMerged, coversMerged, -⟩ :=
    Cube.compress_merges (Problem.fits_project boolean compiled properFirst valid projected)
  have covers := Problem.covered_project_iff boolean compiled properFirst valid projected
    (fun formula member => inRange formula (mem_formulas_of_mem_group member)) grounded
  refine (Cube.toFormula_evaluatesTo_true_iff fitsMerged grounded).trans
    ((coversMerged _).trans (covers.trans ?_))
  refine exists_congr fun valuation => and_congr_left' ?_
  constructor
  · intro agree symbol shared
    obtain ⟨input, member, rfl⟩ := (named symbol).mpr shared
    exact agree input member
  · intro agree input member
    exact agree input.symbol ((named input.symbol).mp ⟨input, member, rfl⟩)

theorem not_solves_interpolant (consistent : solver.Consistent)
    (proper : ∀ formula ∈ solver.formulas, formula.Proper)
    (inRange : ∀ formula ∈ solver.formulas, formula.StaysInRange)
    (result : solver.interpolant pattern = .ok (interpolant, answered)) (valuation : Valuation) :
    ¬ valuation.Solves (interpolant.formula :: solver.group pattern.second) := by
  intro solves
  obtain ⟨⟨-, holds⟩, solvesSecond⟩ := List.forall_mem_cons.mp solves
  have grounds : valuation.Grounds (solver.Shares pattern) := by
    rintro symbol ⟨-, formula, inSecond, mentions⟩
    exact (solvesSecond formula inSecond).1 symbol mentions
  rw [Formula.evaluate_eq_ok_iff,
    (evaluatesTo_interpolant consistent proper inRange result grounds).2] at holds
  obtain ⟨completed, agree, solvesFirst⟩ := holds
  -- The solutions of the two groups agree on what they share, so they make one of
  -- all assertions.
  obtain ⟨joined, joinsFirst, joinsSecond⟩ := solvesFirst.join solvesSecond
    fun symbol inFirst inSecond => agree symbol ⟨inFirst, inSecond⟩
  obtain ⟨unsat, covers, -⟩ := interpolant_eq_ok result
  have refuted : solver.last = some .unsat := by
    obtain ⟨last, remembered, isUnsat⟩ := Option.map_eq_some_iff.mp unsat
    cases last <;> simp_all [LastCheck.status]
  exact consistent.refuted refuted joined fun formula member =>
    (mem_group_of_mem_formulas covers member).elim (joinsFirst formula) (joinsSecond formula)

/-- The interpolant mentions only shared symbols, it is true at exactly the
points that extend to a solution of the first group and false at all others, and
it contradicts the second group. -/
theorem interpolant_strongest (reachable : solver.Reachable)
    (proper : ∀ formula ∈ solver.formulas, formula.Proper)
    (inRange : ∀ formula ∈ solver.formulas, formula.StaysInRange)
    (result : solver.interpolant pattern = .ok (interpolant, answered)) :
    ∃ formula, interpolant.label? pattern.first = some formula ∧
      (∀ symbol, formula.Mentions symbol → solver.Shares pattern symbol) ∧
      (∀ point : Valuation, point.Grounds (solver.Shares pattern) →
        (formula.evaluate point = .ok (.bool true) ↔ solver.Completes pattern point) ∧
        (formula.evaluate point = .ok (.bool false) ↔ ¬ solver.Completes pattern point)) ∧
      ∀ valuation : Valuation,
        ¬ valuation.Solves (formula :: solver.group pattern.second) := by
  have consistent := reachable.consistent
  refine ⟨interpolant.formula, label_first result,
    fun symbol => shares_of_interpolant consistent result, fun point grounds => ?_,
    not_solves_interpolant consistent proper inRange result⟩
  obtain ⟨⟨holds, evaluated⟩, isTrue⟩ :=
    evaluatesTo_interpolant consistent proper inRange result grounds
  rw [Formula.evaluate_eq_ok_iff, Formula.evaluate_eq_ok_iff, ← isTrue]
  refine ⟨Iff.rfl, fun isFalse isTrue => ?_, fun notTrue => ?_⟩
  · simpa using isFalse.unique isTrue
  · cases holds with
    | false => exact evaluated
    | true => exact absurd evaluated notTrue

/-! A number that is small for one group and large for another. -/

private def number : Symbol := .current ⟨0, "x", .range 0 3⟩

private def spare : Symbol := .current ⟨1, "y", .range 0 3⟩

def isPositive : Formula := .binary .lt (.int 0) (.symbol number)

def isSmall : Formula := .binary .leq (.nary .add [.symbol number, .symbol number]) (.int 3)

def isSpared : Formula := .binary .eq (.symbol spare) (.int 2)

def isLarge : Formula := .binary .leq (.int 2) (.symbol number)

def asserting (assertions : List Assertion) : Solver :=
  { new 0 ⟨20, 20⟩ with nextMarker := 2, assertions := assertions }

def bounds : Solver :=
  asserting [⟨none, isPositive⟩, ⟨some ⟨0, 0⟩, isSmall⟩, ⟨some ⟨0, 0⟩, isSpared⟩,
    ⟨some ⟨0, 1⟩, isLarge⟩]

private theorem formulas_bounds : bounds.formulas = [isPositive, isSmall, isSpared, isLarge] := rfl

private theorem reachable_asserting {assertions : List Assertion} {id : Nat} {formula : Formula}
    (reachable : (asserting assertions).Reachable) (owned : id < 2)
    (assertable : Assertable formula) :
    (asserting (assertions ++ [⟨some ⟨0, id⟩, formula⟩])).Reachable := by
  have owns : (asserting assertions).owns ⟨0, id⟩ = true := decide_eq_true owned
  exact reachable.addTo (addTo_eq_ok_iff.mpr ⟨owns, assert_eq_ok_iff.mpr ⟨assertable, rfl⟩⟩)

private theorem reachable_bounds : bounds.Reachable := by
  have empty : (asserting []).Reachable := .createMarker (.createMarker (.new 0 ⟨20, 20⟩))
  have positive : (asserting [⟨none, isPositive⟩]).Reachable :=
    empty.add (assert_eq_ok_iff.mpr ⟨(by decide +kernel : Assertable isPositive), rfl⟩)
  have small :=
    reachable_asserting positive Nat.zero_lt_two (by decide +kernel : Assertable isSmall)
  have spared :=
    reachable_asserting small Nat.zero_lt_two (by decide +kernel : Assertable isSpared)
  exact reachable_asserting spared Nat.one_lt_two (by decide +kernel : Assertable isLarge)

private theorem proper_bounds : ∀ formula ∈ bounds.formulas, formula.Proper := by
  rw [formulas_bounds]
  intro formula member symbol mentions
  have known : symbol = number ∨ symbol = spare := by
    simp only [List.mem_cons, List.not_mem_nil, or_false] at member
    rcases member with rfl | rfl | rfl | rfl <;>
      simp_all [isPositive, isSmall, isSpared, isLarge]
  rcases known with rfl | rfl <;> decide

private theorem exists_double {word : Int64} (least : 0 ≤ word.toInt) (greatest : word.toInt ≤ 3) :
    ∃ total, [word, word].foldlM Word.add? 0 = some total := by
  obtain rfl | rfl | rfl | rfl : word = 0 ∨ word = 1 ∨ word = 2 ∨ word = 3 := by
    simp only [← Int64.toInt_inj, Int64.reduceToInt]
    omega
  all_goals exact ⟨_, rfl⟩

private theorem staysInRange_bounds : ∀ formula ∈ bounds.formulas, formula.StaysInRange := by
  simp only [formulas_bounds, List.forall_mem_cons, List.not_mem_nil, false_implies, implies_true,
    and_true]
  refine ⟨?_, ?_, ?_, ?_⟩ <;> refine Formula.staysInRange_of_evaluatesTo fun valuation admits => ?_
  · obtain ⟨word, evaluated, -⟩ := admits.exists_evaluatesTo number (by simp [isPositive]) rfl
    exact ⟨_, .binary (by decide) (.int 0) evaluated rfl⟩
  · obtain ⟨word, evaluated, least, greatest⟩ :=
      admits.exists_evaluatesTo number (by simp [isSmall]) rfl
    obtain ⟨total, sum⟩ := exists_double least greatest
    have doubled : (Formula.nary .add [.symbol number, .symbol number]).EvaluatesTo valuation
        (.int total) :=
      @Formula.EvaluatesTo.sum _ _ (fun _ => word) total (by simpa using evaluated) sum
    exact ⟨_, .binary (by decide) doubled (.int 3) rfl⟩
  · obtain ⟨word, evaluated, -⟩ := admits.exists_evaluatesTo spare (by simp [isSpared]) rfl
    exact ⟨_, .binary (by decide) evaluated (.int 2) rfl⟩
  · obtain ⟨word, evaluated, -⟩ := admits.exists_evaluatesTo number (by simp [isLarge]) rfl
    exact ⟨_, .binary (by decide) (.int 2) evaluated rfl⟩

private theorem exists_interpolated {solver : Solver} {pattern : Pattern}
    (runs : (solver.check.toOption.bind fun checked =>
      (checked.2.interpolant pattern).toOption).isSome = true) :
    ∃ status checked interpolant answered, solver.check = .ok (status, checked) ∧
      checked.interpolant pattern = .ok (interpolant, answered) := by
  obtain ⟨⟨interpolant, answered⟩, both⟩ := Option.isSome_iff_exists.mp runs
  obtain ⟨⟨status, checked⟩, refuted, result⟩ := Option.bind_eq_some_iff.mp both
  exact ⟨status, checked, interpolant, answered, Outcome.toOption_eq_some_iff.mp refuted,
    Outcome.toOption_eq_some_iff.mp result⟩

theorem interpolant_strongest_bounds :
    ∃ status checked interpolant answered formula,
      bounds.Reachable ∧ bounds.check = .ok (status, checked) ∧
      checked.interpolant ⟨⟨0, 0⟩, ⟨0, 1⟩⟩ = .ok (interpolant, answered) ∧
      interpolant.label? ⟨0, 0⟩ = some formula ∧
      (∀ symbol, formula.Mentions symbol → checked.Shares ⟨⟨0, 0⟩, ⟨0, 1⟩⟩ symbol) ∧
      (∀ point : Valuation, point.Grounds (checked.Shares ⟨⟨0, 0⟩, ⟨0, 1⟩⟩) →
        (formula.evaluate point = .ok (.bool true) ↔
          checked.Completes ⟨⟨0, 0⟩, ⟨0, 1⟩⟩ point) ∧
        (formula.evaluate point = .ok (.bool false) ↔
          ¬ checked.Completes ⟨⟨0, 0⟩, ⟨0, 1⟩⟩ point)) ∧
      ∀ valuation : Valuation, ¬ valuation.Solves (formula :: checked.group ⟨0, 1⟩) := by
  obtain ⟨status, checked, interpolant, answered, refuted, result⟩ :
      ∃ status checked interpolant answered, bounds.check = .ok (status, checked) ∧
        checked.interpolant ⟨⟨0, 0⟩, ⟨0, 1⟩⟩ = .ok (interpolant, answered) :=
    exists_interpolated (by decide +kernel)
  obtain ⟨-, -, -, -, -, -, -, assertions, -⟩ := check_eq_ok refuted
  have formulas : checked.formulas = bounds.formulas := by
    rw [Solver.formulas, Solver.formulas, assertions]
  obtain ⟨formula, strongest⟩ := interpolant_strongest (.check reachable_bounds refuted)
    (formulas ▸ proper_bounds) (formulas ▸ staysInRange_bounds) result
  exact ⟨status, checked, interpolant, answered, formula, reachable_bounds, refuted, result,
    strongest⟩

end Solver

end SymbolicSafety
