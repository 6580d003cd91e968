import SymbolicSafety.Proofs.Interpolation

namespace SymbolicSafety

/-! Truth under values for all symbols at once. Valuations are finite, and which
symbols they bind varies from one question to the solver to the next; a value
for every symbol carries over. -/

abbrev Assignment := Symbol → Value

namespace Assignment

def valuation (assignment : Assignment) (formulas : List Formula) : Valuation :=
  SortedMap.ofList ((formulas.flatMap fun formula => formula.symbols.keys).map fun symbol =>
    (symbol, assignment symbol))

theorem get?_valuation (assignment : Assignment) {formulas : List Formula} {formula : Formula}
    (member : formula ∈ formulas) {symbol : Symbol} (mentions : formula.Mentions symbol) :
    (assignment.valuation formulas).get? symbol = some (assignment symbol) := by
  rw [valuation, SortedMap.get?_ofList_map, if_pos]
  exact List.mem_flatMap.mpr ⟨formula, member, (formula.mem_symbols_iff symbol).mpr mentions⟩

/-- The symbols of the formula have values of their domains. -/
def Within (assignment : Assignment) (formula : Formula) : Prop :=
  ∀ symbol, formula.Mentions symbol → symbol.domain.contains (assignment symbol) = true

theorem Within.admits {assignment : Assignment} {formulas : List Formula} {formula : Formula}
    (within : assignment.Within formula) (member : formula ∈ formulas) :
    (assignment.valuation formulas).Admits formula :=
  fun symbol mentions =>
    ⟨assignment symbol, assignment.get?_valuation member mentions, within symbol mentions⟩

end Assignment

namespace Formula

variable {assignment other : Assignment} {formula : Formula} {operands : List Formula}
  {holds : Bool}

def HasTruth (assignment : Assignment) (formula : Formula) (holds : Bool) : Prop :=
  formula.evaluate (assignment.valuation [formula]) = .ok (.bool holds)

def Holds (assignment : Assignment) (formula : Formula) : Prop := formula.HasTruth assignment true

theorem hasTruth_iff {valuation : Valuation}
    (agree : ∀ symbol, formula.Mentions symbol → valuation.get? symbol = some (assignment symbol)) :
    formula.HasTruth assignment holds ↔ formula.EvaluatesTo valuation (.bool holds) := by
  have same : formula.evaluate (assignment.valuation [formula]) = formula.evaluate valuation :=
    formula.evaluate_congr fun symbol mentions =>
      (assignment.get?_valuation (List.mem_singleton_self _) mentions).trans
        (agree symbol mentions).symm
  rw [HasTruth, same, evaluate_eq_ok_iff]

theorem hasTruth_congr
    (agree : ∀ symbol, formula.Mentions symbol → assignment symbol = other symbol) :
    formula.HasTruth assignment holds ↔ formula.HasTruth other holds := by
  rw [hasTruth_iff fun symbol mentions =>
    (other.get?_valuation (List.mem_singleton_self formula) mentions).trans
      (congrArg some (agree symbol mentions).symm), HasTruth, evaluate_eq_ok_iff]

theorem HasTruth.unique {first second : Bool} (left : formula.HasTruth assignment first)
    (right : formula.HasTruth assignment second) : first = second := by
  simpa using left.symm.trans right

def HasValue (assignment : Assignment) (formula : Formula) (value : Value) : Prop :=
  formula.evaluate (assignment.valuation [formula]) = .ok value

theorem hasValue_iff {valuation : Valuation} {value : Value}
    (agree : ∀ symbol, formula.Mentions symbol → valuation.get? symbol = some (assignment symbol)) :
    formula.HasValue assignment value ↔ formula.EvaluatesTo valuation value := by
  have same : formula.evaluate (assignment.valuation [formula]) = formula.evaluate valuation :=
    formula.evaluate_congr fun symbol mentions =>
      (assignment.get?_valuation (List.mem_singleton_self _) mentions).trans
        (agree symbol mentions).symm
  rw [HasValue, same, evaluate_eq_ok_iff]

theorem hasValue_congr {value : Value}
    (agree : ∀ symbol, formula.Mentions symbol → assignment symbol = other symbol) :
    formula.HasValue assignment value ↔ formula.HasValue other value := by
  rw [hasValue_iff fun symbol mentions =>
    (other.get?_valuation (List.mem_singleton_self formula) mentions).trans
      (congrArg some (agree symbol mentions).symm), HasValue, evaluate_eq_ok_iff]

theorem hasValue_symbol (assignment : Assignment) (name : Symbol) :
    (Formula.symbol name).HasValue assignment (assignment name) := by
  have bound := assignment.get?_valuation (List.mem_singleton_self (Formula.symbol name))
    ((mentions_symbol name name).mpr rfl)
  exact (evaluate_eq_ok_iff ..).mpr (.symbol bound)

theorem StaysInRange.exists_hasValue {sort : ValueSort} (inRange : formula.StaysInRange)
    (typed : formula.HasSort sort) (free : formula.PrimeFree) (within : assignment.Within formula) :
    ∃ value, formula.HasValue assignment value ∧ value.sort = sort := by
  have admits := within.admits (List.mem_singleton_self formula)
  rcases evaluate_of_hasSort typed free admits.suits with evaluated | ⟨fault, overflow⟩
  · exact evaluated
  · exact absurd overflow (inRange _ admits fault)

/-! ## Builders -/

private theorem hasTruth_iff_of_mem (member : formula ∈ operands) :
    formula.HasTruth assignment holds ↔
      formula.EvaluatesTo (assignment.valuation operands) (.bool holds) :=
  hasTruth_iff fun _ mentions => assignment.get?_valuation member mentions

private theorem hasTruth_junction_iff (op : NaryOp) (neutral : Bool) :
    (junction op neutral operands).HasTruth assignment holds ↔
      (junction op neutral operands).EvaluatesTo (assignment.valuation operands) (.bool holds) := by
  refine hasTruth_iff fun symbol mentions => ?_
  obtain ⟨operand, member, mentions⟩ := mentions_of_junction mentions
  exact assignment.get?_valuation member mentions

theorem holds_mkAnd_iff (operands : List Formula) :
    (mkAnd operands).Holds assignment ↔ ∀ operand ∈ operands, operand.Holds assignment := by
  refine (hasTruth_junction_iff .and true).trans ((mkAnd_evaluatesTo_true_iff operands).trans ?_)
  exact forall₂_congr fun operand member => (hasTruth_iff_of_mem member).symm

theorem exists_hasTruth_mkAnd
    (decided : ∀ operand ∈ operands, ∃ holds, operand.HasTruth assignment holds) :
    ∃ holds, (mkAnd operands).HasTruth assignment holds := by
  obtain ⟨holds, evaluated⟩ := mkAnd_decided fun operand member =>
    (decided operand member).imp fun _ => (hasTruth_iff_of_mem member).mp
  exact ⟨holds, (hasTruth_junction_iff .and true).mpr evaluated⟩

theorem exists_hasTruth_mkOr
    (decided : ∀ operand ∈ operands, ∃ holds, operand.HasTruth assignment holds) :
    ∃ holds, (mkOr operands).HasTruth assignment holds := by
  obtain ⟨holds, evaluated⟩ := mkOr_decided fun operand member =>
    (decided operand member).imp fun _ => (hasTruth_iff_of_mem member).mp
  exact ⟨holds, (hasTruth_junction_iff .or false).mpr evaluated⟩

theorem exists_holds_of_mkOr (held : (mkOr operands).Holds assignment) :
    ∃ operand ∈ operands, operand.Holds assignment := by
  obtain ⟨operand, member, evaluated⟩ := exists_of_mkOr ((hasTruth_junction_iff .or false).mp held)
  exact ⟨operand, member, (hasTruth_iff_of_mem member).mpr evaluated⟩

theorem holds_mkOr_iff
    (decided : ∀ operand ∈ operands, ∃ holds, operand.HasTruth assignment holds) :
    (mkOr operands).Holds assignment ↔ ∃ operand ∈ operands, operand.Holds assignment := by
  refine ⟨exists_holds_of_mkOr, ?_⟩
  rintro ⟨operand, member, held⟩
  exact (hasTruth_junction_iff .or false).mpr (mkOr_evaluatesTo_true
    (fun operand member => (decided operand member).imp fun _ => (hasTruth_iff_of_mem member).mp)
    member ((hasTruth_iff_of_mem member).mp held))

theorem hasTruth_mkNot_iff :
    (mkNot formula).HasTruth assignment holds ↔ formula.HasTruth assignment (!holds) := by
  have agree : ∀ symbol, (mkNot formula).Mentions symbol →
      (assignment.valuation [formula]).get? symbol = some (assignment symbol) :=
    fun symbol mentions => assignment.get?_valuation (List.mem_singleton_self formula)
      ((mkNot_mentions_iff formula symbol).mp mentions)
  rw [hasTruth_iff agree, mkNot_evaluatesTo_iff, HasTruth, evaluate_eq_ok_iff]

theorem holds_mkNot_iff (decided : ∃ holds, formula.HasTruth assignment holds) :
    (mkNot formula).Holds assignment ↔ ¬ formula.Holds assignment := by
  obtain ⟨holds, truth⟩ := decided
  rw [Holds, hasTruth_mkNot_iff]
  cases holds with
  | true => exact ⟨fun false' => absurd (false'.unique truth) (by decide), (absurd truth ·)⟩
  | false => exact ⟨fun _ true' => absurd (true'.unique truth) (by decide), fun _ => truth⟩

theorem hasTruth_mkEq_symbol (name : Symbol) {value : Value}
    (evaluated : formula.HasValue assignment value) :
    (mkEq (.symbol name) formula).HasTruth assignment (assignment name = value) := by
  have equation : mkEq (.symbol name) formula = .binary .eq (.symbol name) formula := rfl
  have bound (symbol : Symbol) (mentions : (mkEq (.symbol name) formula).Mentions symbol) :
      (assignment.valuation [mkEq (.symbol name) formula]).get? symbol = some (assignment symbol) :=
    assignment.get?_valuation (List.mem_singleton_self _) mentions
  have left : (Formula.symbol name).EvaluatesTo
      (assignment.valuation [mkEq (.symbol name) formula]) (assignment name) :=
    .symbol (bound name (by simp [equation]))
  have right := (hasValue_iff fun symbol mentions =>
    bound symbol (by simp [equation, mentions])).mp evaluated
  rw [HasTruth, evaluate_eq_ok_iff]
  exact .binary (by decide) left right rfl

theorem holds_mkEq_symbol_iff {name : Symbol} {value : Value}
    (evaluated : formula.HasValue assignment value) :
    (mkEq (.symbol name) formula).Holds assignment ↔ assignment name = value := by
  have truth := hasTruth_mkEq_symbol name evaluated
  constructor
  · intro holds
    exact of_decide_eq_true (truth.unique holds)
  · intro equal
    rwa [decide_eq_true equal] at truth

/-! ## Formulas that are true or false -/

/-- Values of the domains make the formula true or false. -/
def Decided (formula : Formula) : Prop :=
  ∀ assignment : Assignment, assignment.Within formula → ∃ holds, formula.HasTruth assignment holds

theorem decided_bool (value : Bool) : (Formula.bool value).Decided :=
  fun _ _ => ⟨value, rfl⟩

private theorem within_of_junction {op : NaryOp} {neutral : Bool}
    (within : assignment.Within (junction op neutral operands))
    (other : .bool (!neutral) ∉ operands) (member : formula ∈ operands) :
    assignment.Within formula :=
  fun symbol mentions =>
    within symbol ((mentions_junction_iff other symbol).mpr ⟨formula, member, mentions⟩)

theorem Decided.mkAnd (decided : ∀ operand ∈ operands, operand.Decided) :
    (Formula.mkAnd operands).Decided := by
  intro assignment within
  by_cases absorbed : .bool (!true) ∈ operands
  · rw [Formula.mkAnd, junction_of_mem absorbed]
    exact ⟨false, rfl⟩
  · exact exists_hasTruth_mkAnd fun operand member =>
      decided operand member assignment (within_of_junction within absorbed member)

theorem Decided.mkOr (decided : ∀ operand ∈ operands, operand.Decided) :
    (Formula.mkOr operands).Decided := by
  intro assignment within
  by_cases absorbed : .bool (!false) ∈ operands
  · rw [Formula.mkOr, junction_of_mem absorbed]
    exact ⟨true, rfl⟩
  · exact exists_hasTruth_mkOr fun operand member =>
      decided operand member assignment (within_of_junction within absorbed member)

theorem Decided.mkNot (decided : formula.Decided) : (Formula.mkNot formula).Decided := by
  intro assignment within
  obtain ⟨holds, truth⟩ := decided assignment fun symbol mentions =>
    within symbol ((mkNot_mentions_iff formula symbol).mpr mentions)
  exact ⟨!holds, hasTruth_mkNot_iff.mpr (by simpa using truth)⟩

end Formula

/-! ## Valuations as assignments -/

def Domain.someValue : Domain → Value
  | .bool => .bool false
  | .int => .int 0
  | .range least _ => .int least

theorem Domain.Proper.contains_someValue {domain : Domain} (proper : domain.Proper) :
    domain.contains domain.someValue = true := by
  cases domain with
  | bool => rfl
  | int => rfl
  | range least greatest =>
      simp only [Domain.Proper] at proper
      simpa [Domain.contains, Domain.someValue] using proper

/-- The values that are bound, as far as they belong to their domains, and some
values for all other symbols. -/
def Valuation.completed (valuation : Valuation) : Assignment := fun symbol =>
  ((valuation.get? symbol).filter symbol.domain.contains).getD symbol.domain.someValue

namespace Valuation

variable {valuation : Valuation} {formula : Formula}

theorem contains_completed {symbol : Symbol} (proper : symbol.domain.Proper) :
    symbol.domain.contains (valuation.completed symbol) = true := by
  unfold completed
  cases kept : (valuation.get? symbol).filter symbol.domain.contains with
  | none => exact proper.contains_someValue
  | some value => exact (Option.filter_eq_some_iff.mp kept).2

theorem completed_eq {symbol : Symbol} {value : Value}
    (bound : valuation.get? symbol = some value)
    (contains : symbol.domain.contains value = true) : valuation.completed symbol = value := by
  rw [completed, bound, Option.filter_some, if_pos contains, Option.getD_some]

theorem Admits.get?_eq_completed (admits : valuation.Admits formula) {symbol : Symbol}
    (mentions : formula.Mentions symbol) :
    valuation.get? symbol = some (valuation.completed symbol) := by
  obtain ⟨value, bound, contains⟩ := admits symbol mentions
  rw [bound, completed_eq bound contains]

theorem Admits.within (admits : valuation.Admits formula) :
    valuation.completed.Within formula := by
  intro symbol mentions
  obtain ⟨value, bound, contains⟩ := admits symbol mentions
  rw [completed_eq bound contains]
  exact contains

theorem Admits.hasTruth_iff (admits : valuation.Admits formula) {holds : Bool} :
    formula.HasTruth valuation.completed holds ↔
      formula.evaluate valuation = .ok (.bool holds) := by
  rw [Formula.hasTruth_iff fun symbol mentions => admits.get?_eq_completed mentions,
    Formula.evaluate_eq_ok_iff]

end Valuation

namespace Formula

variable {formula : Formula}

theorem Decided.staysInRange (decided : formula.Decided) : formula.StaysInRange := by
  intro valuation admits fault overflow
  obtain ⟨holds, truth⟩ := decided valuation.completed admits.within
  rw [admits.hasTruth_iff, overflow] at truth
  simp at truth

theorem StaysInRange.decided (inRange : formula.StaysInRange) (boolean : formula.IsBoolean)
    (free : formula.PrimeFree) : formula.Decided := by
  intro assignment within
  have admits := within.admits (List.mem_singleton_self formula)
  rcases evaluate_of_isBoolean boolean free admits.suits with evaluated | ⟨fault, overflow⟩
  · exact evaluated
  · exact absurd overflow (inRange _ admits fault)

end Formula

/-! ## Answers of the solver -/

namespace Solver

variable {solver checked answered : Solver} {assignment : Assignment}

private theorem solves_valuation {formulas : List Formula}
    (within : ∀ formula ∈ formulas, assignment.Within formula)
    (holds : ∀ formula ∈ formulas, formula.Holds assignment) :
    (assignment.valuation formulas).Solves formulas := by
  intro formula member
  refine ⟨(within formula member).admits member, (formula.evaluate_eq_ok_iff _).mpr ?_⟩
  exact (Formula.hasTruth_iff fun symbol mentions => assignment.get?_valuation member mentions).mp
    (holds formula member)

theorem not_holds_of_check (assertable : ∀ formula ∈ solver.formulas, Assertable formula)
    (unsat : solver.check = .ok (.unsat, checked))
    (within : ∀ formula ∈ solver.formulas, assignment.Within formula) :
    ¬ ∀ formula ∈ solver.formulas, formula.Holds assignment :=
  fun holds => not_solves_of_check assertable unsat _ (solves_valuation within holds)

theorem completed_of_model (assertable : ∀ formula ∈ solver.formulas, Assertable formula)
    (sat : solver.check = .ok (.sat, checked)) {model : Valuation}
    (found : checked.model = .ok model) (admits : ∀ formula ∈ solver.formulas, model.Admits formula)
    {symbol : Symbol} {value : Value} (bound : model.get? symbol = some value) :
    model.completed symbol = value := by
  obtain ⟨formula, member, mentions⟩ := mentions_of_model assertable sat found bound
  have completed := (admits formula member).get?_eq_completed mentions
  exact Option.some.inj (completed.symm.trans bound)

/-- A model gives the symbols of the assertions, and no others, values of their
domains. Under these all assertions hold. -/
theorem exists_holds_of_check (assertable : ∀ formula ∈ solver.formulas, Assertable formula)
    (proper : ∀ formula ∈ solver.formulas, formula.Proper)
    (decided : ∀ formula ∈ solver.formulas, formula.Decided)
    (sat : solver.check = .ok (.sat, checked)) :
    ∃ model, checked.model = .ok model ∧
      (∀ formula ∈ solver.formulas, model.Admits formula ∧ formula.Holds model.completed) ∧
      ∀ symbol value, model.get? symbol = some value → model.completed symbol = value := by
  obtain ⟨model, found, each⟩ := exists_model_of_check assertable proper sat
  refine ⟨model, found, fun formula member => ?_, fun symbol value bound =>
    completed_of_model assertable sat found (fun formula member => (each formula member).1) bound⟩
  obtain ⟨admits, evaluated⟩ := each formula member
  refine ⟨admits, admits.hasTruth_iff.mpr (evaluated.resolve_right ?_)⟩
  rintro ⟨fault, overflow⟩
  exact (decided formula member).staysInRange _ admits fault overflow

variable {pattern : Pattern} {interpolant : Interpolant}

/-- Under values of the domains an interpolant holds exactly if the first group
holds under some values that are the same on the shared symbols. -/
theorem holds_interpolant_iff (consistent : solver.Consistent)
    (proper : ∀ formula ∈ solver.formulas, formula.Proper)
    (decided : ∀ formula ∈ solver.formulas, formula.Decided)
    (result : solver.interpolant pattern = .ok (interpolant, answered))
    (within : ∀ symbol, solver.Shares pattern symbol →
      symbol.domain.contains (assignment symbol) = true) :
    interpolant.formula.Holds assignment ↔ ∃ other : Assignment,
      (∀ symbol, solver.Shares pattern symbol → other symbol = assignment symbol) ∧
      ∀ formula ∈ solver.group pattern.first, other.Within formula ∧ formula.Holds other := by
  have bound {symbol : Symbol} (shared : solver.Shares pattern symbol) :
      (assignment.valuation solver.formulas).get? symbol = some (assignment symbol) := by
    obtain ⟨⟨formula, member, mentions⟩, -⟩ := shared
    exact assignment.get?_valuation (mem_formulas_of_mem_group member) mentions
  have truth : interpolant.formula.Holds assignment ↔
      interpolant.formula.EvaluatesTo (assignment.valuation solver.formulas) (.bool true) :=
    Formula.hasTruth_iff fun symbol mentions =>
      bound (shares_of_interpolant consistent result mentions)
  have grounds : (assignment.valuation solver.formulas).Grounds (solver.Shares pattern) :=
    fun symbol shared => ⟨assignment symbol, bound shared, within symbol shared⟩
  obtain ⟨-, isTrue⟩ := evaluatesTo_interpolant consistent proper
    (fun formula member => (decided formula member).staysInRange) result grounds
  refine truth.trans (isTrue.trans ⟨?_, ?_⟩)
  · rintro ⟨valuation, agree, solves⟩
    refine ⟨valuation.completed, fun symbol shared => ?_, fun formula member => ?_⟩
    · exact Valuation.completed_eq ((agree symbol shared).trans (bound shared))
        (within symbol shared)
    · obtain ⟨admits, holds⟩ := solves formula member
      exact ⟨admits.within, admits.hasTruth_iff.mpr holds⟩
  · rintro ⟨other, agree, each⟩
    refine ⟨other.valuation (solver.group pattern.first), fun symbol shared => ?_,
      solves_valuation (fun formula member => (each formula member).1)
        fun formula member => (each formula member).2⟩
    obtain ⟨formula, member, mentions⟩ := shared.1
    rw [other.get?_valuation member mentions, agree symbol shared, bound shared]

theorem decided_interpolant (consistent : solver.Consistent)
    (proper : ∀ formula ∈ solver.formulas, formula.Proper)
    (result : solver.interpolant pattern = .ok (interpolant, answered)) :
    interpolant.formula.Decided := by
  classical
  intro assignment within
  -- Symbols that the interpolant does not mention get some value of their domains.
  let adjusted : Assignment := fun symbol =>
    if interpolant.formula.Mentions symbol then assignment symbol else symbol.domain.someValue
  have same : ∀ symbol, interpolant.formula.Mentions symbol → adjusted symbol = assignment symbol :=
    fun symbol mentions => if_pos mentions
  have bound {symbol : Symbol} (shared : solver.Shares pattern symbol) :
      (adjusted.valuation solver.formulas).get? symbol = some (adjusted symbol) := by
    obtain ⟨⟨formula, member, mentions⟩, -⟩ := shared
    exact adjusted.get?_valuation (mem_formulas_of_mem_group member) mentions
  have grounds : (adjusted.valuation solver.formulas).Grounds (solver.Shares pattern) := by
    intro symbol shared
    refine ⟨adjusted symbol, bound shared, ?_⟩
    obtain ⟨⟨formula, member, mentioned⟩, -⟩ := shared
    by_cases mentions : interpolant.formula.Mentions symbol
    · rw [same symbol mentions]
      exact within symbol mentions
    · have unmentioned : adjusted symbol = symbol.domain.someValue := if_neg mentions
      rw [unmentioned]
      exact (proper formula (mem_formulas_of_mem_group member) symbol mentioned).contains_someValue
  obtain ⟨holds, evaluated⟩ := exists_evaluatesTo_interpolant consistent proper result grounds
  refine ⟨holds, (Formula.hasTruth_congr same).mp ((Formula.hasTruth_iff ?_).mpr evaluated)⟩
  exact fun symbol mentions => bound (shares_of_interpolant consistent result mentions)

theorem not_holds_interpolant (consistent : solver.Consistent)
    (proper : ∀ formula ∈ solver.formulas, formula.Proper)
    (decided : ∀ formula ∈ solver.formulas, formula.Decided)
    (result : solver.interpolant pattern = .ok (interpolant, answered))
    (within : ∀ formula ∈ solver.group pattern.second, assignment.Within formula)
    (holds : ∀ formula ∈ solver.group pattern.second, formula.Holds assignment) :
    ¬ interpolant.formula.Holds assignment := by
  intro held
  have inDomain : assignment.Within interpolant.formula := by
    intro symbol mentions
    obtain ⟨-, formula, member, mentioned⟩ := shares_of_interpolant consistent result mentions
    exact within formula member symbol mentioned
  exact not_solves_interpolant consistent proper
    (fun formula member => (decided formula member).staysInRange) result _
    (solves_valuation (List.forall_mem_cons.mpr ⟨inDomain, within⟩)
      (List.forall_mem_cons.mpr ⟨held, holds⟩))

end Solver

end SymbolicSafety
