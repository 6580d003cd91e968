import SymbolicSafety.Proofs.Exploration
import SymbolicSafety.Proofs.ProblemMeaning
import SymbolicSafety.Solver.Basic

namespace SymbolicSafety

/-! What the answers of the solver say about the values of formulas. -/

/-! ## Conjuncts -/

namespace Formula

variable {valuation : Valuation}

theorem mentions_iff_conjuncts (formula : Formula) (symbol : Symbol) :
    formula.Mentions symbol ↔ ∃ conjunct ∈ formula.conjuncts, conjunct.Mentions symbol := by
  unfold conjuncts
  split <;> simp

theorem evaluatesTo_true_iff_conjuncts (formula : Formula) :
    formula.EvaluatesTo valuation (.bool true) ↔
      ∀ conjunct ∈ formula.conjuncts, conjunct.EvaluatesTo valuation (.bool true) := by
  unfold conjuncts
  split
  next operands =>
    refine ⟨fun evaluated => ?_, .all⟩
    cases evaluated with
    | all each => exact each
  next => simp

theorem EvaluatesTo.exists_conjunct {formula : Formula}
    (evaluated : formula.EvaluatesTo valuation (.bool false)) :
    ∃ conjunct ∈ formula.conjuncts, conjunct.EvaluatesTo valuation (.bool false) := by
  unfold conjuncts
  split
  next operands =>
    cases evaluated with
    | notAll split _ last => exact ⟨_, split ▸ List.mem_append_right _ List.mem_cons_self, last⟩
  next => exact ⟨_, List.mem_singleton_self _, evaluated⟩

theorem primeFree_of_conjuncts {formula : Formula}
    (each : ∀ conjunct ∈ formula.conjuncts, conjunct.PrimeFree) : formula.PrimeFree := by
  unfold conjuncts at each
  split at each
  next operands => exact (primeFree_nary ..).mpr each
  next => exact each _ (List.mem_singleton_self _)

end Formula

/-! ## Proper domains -/

/-- A domain with finitely many values, and with at least one. -/
def Domain.Proper : Domain → Prop
  | .bool => True
  | .int => False
  | .range least greatest => least ≤ greatest

instance : (domain : Domain) → Decidable domain.Proper
  | .bool => .isTrue trivial
  | .int => .isFalse id
  | .range least greatest => inferInstanceAs (Decidable (least ≤ greatest))

theorem Domain.Proper.ordered {domain : Domain} {interval : Interval} (proper : domain.Proper)
    (finite : domain.interval? = some interval) : interval.lo ≤ interval.hi := by
  cases domain with
  | int => simp [Domain.interval?] at finite
  | bool =>
      obtain rfl := Option.some.inj finite
      decide
  | range least greatest =>
      obtain rfl := Option.some.inj finite
      exact Int64.le_iff_toInt_le.mp proper

def Formula.Proper (formula : Formula) : Prop :=
  ∀ symbol, formula.Mentions symbol → symbol.domain.Proper

namespace Circuit

variable {circuit : Circuit}

theorem wholeBox_getElem? {index : Nat} {interval : Interval} :
    circuit.wholeBox[index]? = some interval ↔
      ∃ input, circuit.inputs[index]? = some input ∧ input.domain = interval := by
  simp [wholeBox]

theorem isBox_wholeBox (ordered : ∀ input ∈ circuit.inputs, input.domain.lo ≤ input.domain.hi) :
    circuit.IsBox circuit.wholeBox := by
  refine Box.Refines.refl fun index interval found => ?_
  obtain ⟨input, held, rfl⟩ := wholeBox_getElem?.mp found
  exact ordered input (Array.mem_of_getElem? held)

/-! ## Reading a box back -/

theorem mem_valuation {box : Box} {symbol : Symbol} {value : Value} :
    (symbol, value) ∈ circuit.valuation box ↔
      ∃ (index : Nat) (input : Input) (interval : Interval),
        circuit.inputs[index]? = some input ∧ box[index]? = some interval ∧
        symbol = input.symbol ∧ value = input.symbol.domain.valueOf interval.lo := by
  simp only [valuation, List.mem_map, Array.mem_toList_iff, Array.mem_iff_getElem?, Prod.exists,
    Prod.mk.injEq, Array.getElem?_zip_eq_some]
  constructor
  · rintro ⟨input, interval, ⟨index, held, bound⟩, rfl, rfl⟩
    exact ⟨index, input, interval, held, bound, rfl, rfl⟩
  · rintro ⟨index, input, interval, held, bound, rfl, rfl⟩
    exact ⟨input, interval, ⟨index, held, bound⟩, rfl, rfl⟩

theorem get?_valuation_of_getElem? (wellFormed : circuit.WellFormed) {box : Box} {index : Nat}
    {input : Input} {interval : Interval} (held : circuit.inputs[index]? = some input)
    (bound : box[index]? = some interval) :
    (SortedMap.ofList (circuit.valuation box)).get? input.symbol =
      some (input.symbol.domain.valueOf interval.lo) := by
  refine SortedMap.get?_ofList_of_unique
    (mem_valuation.mpr ⟨index, input, interval, held, bound, rfl, rfl⟩) fun other member => ?_
  obtain ⟨index', input', interval', held', bound', same, rfl⟩ := mem_valuation.mp member
  obtain rfl := wellFormed.distinct _ _ _ _ held held' same
  obtain rfl := Option.some.inj (held.symm.trans held')
  obtain rfl := Option.some.inj (bound.symm.trans bound')
  rfl

theorem get?_valuation (wellFormed : circuit.WellFormed) {box : Box}
    (isBox : circuit.IsBox box) {index : Nat} {input : Input}
    (held : circuit.inputs[index]? = some input) :
    ∃ value, (SortedMap.ofList (circuit.valuation box)).get? input.symbol = some value ∧
      input.symbol.domain.contains value = true ∧ value.number ∈ box.getD index .full := by
  have whole : circuit.wholeBox[index]? = some input.domain := wholeBox_getElem?.mpr ⟨_, held, rfl⟩
  have less : index < box.size := by
    rw [isBox.size]
    exact (Array.getElem?_eq_some_iff.mp whole).1
  have bound : box[index]? = some box[index] := by simp [less]
  have ordered := isBox.ordered index _ bound
  have within := isBox.within index _ _ whole bound
  have inDomain : box[index].lo ∈ input.domain := by
    rw [Interval.mem_iff]
    omega
  obtain ⟨contains, number⟩ :=
    Domain.contains_valueOf (wellFormed.finite index input held) inDomain
  refine ⟨_, get?_valuation_of_getElem? wellFormed held bound, contains, ?_⟩
  rw [number]
  simpa [Array.getD_eq_getD_getElem?, bound, Interval.mem_iff] using ordered

end Circuit

namespace Problem

variable {problem : Problem} {conjuncts : List Formula} {valuation : Valuation}

/-! ## Solutions as valuations -/

theorem Represents.exists_input {formulas : List Formula}
    (represents : problem.Represents (formulas.flatMap Formula.conjuncts)) {formula : Formula}
    (member : formula ∈ formulas) {symbol : Symbol} (mentions : formula.Mentions symbol) :
    ∃ (index : Nat) (input : Input),
      problem.circuit.inputs[index]? = some input ∧ input.symbol = symbol := by
  obtain ⟨conjunct, inConjuncts, inConjunct⟩ :=
    (formula.mentions_iff_conjuncts symbol).mp mentions
  obtain ⟨root, -, rootOf⟩ :=
    represents.rooted conjunct (List.mem_flatMap.mpr ⟨formula, member, inConjuncts⟩)
  exact rootOf.realized.exists_input inConjunct

theorem Represents.inside_wholeBox (represents : problem.Represents conjuncts)
    (admits : ∀ conjunct ∈ conjuncts, valuation.Admits conjunct) :
    problem.circuit.Inside problem.circuit.wholeBox valuation.number := by
  intro index input held
  obtain ⟨conjunct, member, mentions⟩ := represents.named input (Array.mem_of_getElem? held)
  obtain ⟨value, bound, contains⟩ := admits conjunct member input.symbol mentions
  have finite := represents.wellFormed.finite index input held
  rw [Valuation.number_of_get? bound, Array.getD_eq_getD_getElem?,
    Circuit.wholeBox_getElem?.mpr ⟨input, held, rfl⟩]
  exact Domain.number_mem_interval finite contains

theorem Represents.solved (represents : problem.Represents conjuncts)
    (typed : ∀ conjunct ∈ conjuncts, conjunct.HasSort .bool)
    (suits : ∀ conjunct ∈ conjuncts, valuation.Suits conjunct)
    (holds : ∀ conjunct ∈ conjuncts, conjunct.EvaluatesTo valuation (.bool true)) :
    problem.Solved valuation.number := by
  intro root member
  obtain ⟨conjunct, inConjuncts, rooted⟩ := represents.justified root member
  exact rooted.realized.yields (typed conjunct inConjuncts) (suits conjunct inConjuncts)
    (holds conjunct inConjuncts)

end Problem

/-- The valuation gives every symbol of the formulas a value of its domain and
makes all of them true. -/
def Valuation.Solves (valuation : Valuation) (formulas : List Formula) : Prop :=
  ∀ formula ∈ formulas, valuation.Admits formula ∧ formula.evaluate valuation = .ok (.bool true)

theorem Valuation.Solves.congr {left right : Valuation} {formulas : List Formula}
    (solves : left.Solves formulas)
    (agree : ∀ formula ∈ formulas, ∀ symbol, formula.Mentions symbol →
      right.get? symbol = left.get? symbol) : right.Solves formulas := by
  intro formula member
  obtain ⟨admits, holds⟩ := solves formula member
  constructor
  · intro symbol mentions
    rw [agree formula member symbol mentions]
    exact admits symbol mentions
  · rw [formula.evaluate_congr (agree formula member)]
    exact holds

theorem Valuation.Solves.join {left right : Valuation} {first second : List Formula}
    (leftSolves : left.Solves first) (rightSolves : right.Solves second)
    (agree : ∀ symbol, (∃ formula ∈ first, formula.Mentions symbol) →
      (∃ formula ∈ second, formula.Mentions symbol) → left.get? symbol = right.get? symbol) :
    ∃ joined : Valuation, joined.Solves first ∧ joined.Solves second := by
  classical
  let joined : Valuation :=
    SortedMap.glue (fun symbol => decide (∃ formula ∈ first, formula.Mentions symbol)) left right
  refine ⟨joined, leftSolves.congr fun formula member symbol mentions => ?_,
    rightSolves.congr fun formula member symbol mentions => ?_⟩
  · rw [SortedMap.get?_glue, if_pos (decide_eq_true ⟨formula, member, mentions⟩)]
  · rw [SortedMap.get?_glue]
    split
    next inFirst => exact agree symbol (of_decide_eq_true inFirst) ⟨formula, member, mentions⟩
    next => rfl

namespace Solver

/-! ## Assertions -/

/-- The solver accepts the formula as an assertion. -/
def Assertable (formula : Formula) : Prop := demandAssertable formula = .ok ()

instance (formula : Formula) : Decidable (Assertable formula) :=
  match demanded : demandAssertable formula with
  | .ok () => .isTrue demanded
  | .error _ => .isFalse (by simp [Assertable, demanded])

variable {formula : Formula}

theorem assert_eq_ok_iff {solver added : Solver} {marker : Option Marker} :
    solver.assert marker formula = .ok added ↔ Assertable formula ∧
      added = { solver with
        assertions := solver.assertions ++ [⟨marker, formula⟩]
        last := none } := by
  simp only [assert, Assertable, Outcome.bind_eq_ok_iff, Outcome.pure_eq_ok_iff]
  constructor
  · rintro ⟨done, demanded, rfl⟩
    exact ⟨demanded, rfl⟩
  · rintro ⟨demanded, rfl⟩
    exact ⟨(), demanded, rfl⟩

theorem addTo_eq_ok_iff {solver added : Solver} {marker : Marker} :
    solver.addTo marker formula = .ok added ↔
      solver.owns marker = true ∧ solver.assert (some marker) formula = .ok added := by
  rw [addTo, demandMarker]
  by_cases owned : solver.owns marker = true <;> simp [owned]

private theorem Assertable.compiles (assertable : Assertable formula) :
    formula.IsBoolean ∧ ∃ problem, Problem.ofFormulas [formula] = .ok problem := by
  simp only [Assertable, demandAssertable, Outcome.bind_eq_ok_iff] at assertable
  obtain ⟨sort, inferred, assertable⟩ := assertable
  rw [Outcome.mapError_eq_ok_iff] at inferred
  split at assertable
  · simp at assertable
  next isBool =>
    split at assertable
    · simp at assertable
    · simp only [Outcome.bind_eq_ok_iff, Outcome.mapError_eq_ok_iff] at assertable
      obtain ⟨problem, compiled, -⟩ := assertable
      exact ⟨inferred.trans (by simp_all), problem, compiled⟩

theorem Assertable.isBoolean (assertable : Assertable formula) : formula.IsBoolean :=
  assertable.compiles.1

theorem Assertable.primeFree (assertable : Assertable formula) : formula.PrimeFree := by
  obtain ⟨boolean, problem, compiled⟩ := assertable.compiles
  have represents := Problem.represents_ofFormulas (by simpa using boolean) compiled
  refine Formula.primeFree_of_conjuncts fun conjunct member => ?_
  obtain ⟨root, -, rooted⟩ := represents.rooted conjunct (by simpa using member)
  exact rooted.realized.primeFree

theorem Assertable.exists_interval (assertable : Assertable formula) {symbol : Symbol}
    (mentions : formula.Mentions symbol) :
    ∃ interval, symbol.domain.interval? = some interval := by
  obtain ⟨boolean, problem, compiled⟩ := assertable.compiles
  have represents := Problem.represents_ofFormulas (by simpa using boolean) compiled
  obtain ⟨index, input, held, rfl⟩ := represents.exists_input List.mem_cons_self mentions
  exact ⟨_, represents.wellFormed.finite index input held⟩

end Solver

namespace Problem

variable {problem : Problem} {formulas : List Formula} {valuation : Valuation}

theorem Represents.solved_of_evaluate
    (represents : problem.Represents (formulas.flatMap Formula.conjuncts))
    (boolean : ∀ formula ∈ formulas, formula.IsBoolean)
    (suits : ∀ conjunct ∈ formulas.flatMap Formula.conjuncts, valuation.Suits conjunct)
    (holds : ∀ formula ∈ formulas, formula.evaluate valuation = .ok (.bool true)) :
    problem.Solved valuation.number := by
  refine represents.solved (fun conjunct member => ?_) suits fun conjunct member => ?_
  · obtain ⟨formula, inFormulas, inConjuncts⟩ := List.mem_flatMap.mp member
    exact hasSort_conjuncts (boolean formula inFormulas) inConjuncts
  · obtain ⟨formula, inFormulas, inConjuncts⟩ := List.mem_flatMap.mp member
    have evaluated := (formula.evaluate_eq_ok_iff _).mp (holds formula inFormulas)
    exact formula.evaluatesTo_true_iff_conjuncts.mp evaluated conjunct inConjuncts

theorem solved_of_solves (boolean : ∀ formula ∈ formulas, formula.IsBoolean)
    (compiled : ofFormulas formulas = .ok problem) (solves : valuation.Solves formulas) :
    problem.Solved valuation.number ∧
      problem.circuit.Inside problem.circuit.wholeBox valuation.number := by
  have represents := represents_ofFormulas boolean compiled
  have admits : ∀ conjunct ∈ formulas.flatMap Formula.conjuncts, valuation.Admits conjunct := by
    intro conjunct member symbol mentions
    obtain ⟨formula, inFormulas, inConjuncts⟩ := List.mem_flatMap.mp member
    exact (solves formula inFormulas).1 symbol
      ((formula.mentions_iff_conjuncts symbol).mpr ⟨conjunct, inConjuncts, mentions⟩)
  have suits : ∀ conjunct ∈ formulas.flatMap Formula.conjuncts, valuation.Suits conjunct :=
    fun conjunct member => (admits conjunct member).suits
  have holds : ∀ formula ∈ formulas, formula.evaluate valuation = .ok (.bool true) :=
    fun formula member => (solves formula member).2
  exact ⟨represents.solved_of_evaluate boolean suits holds, represents.inside_wholeBox admits⟩

theorem isBox_of_inside {circuit : Circuit} {numbers : Symbol → Int}
    (inside : circuit.Inside circuit.wholeBox numbers) : circuit.IsBox circuit.wholeBox := by
  refine Circuit.isBox_wholeBox fun input member => ?_
  obtain ⟨index, held⟩ := Array.mem_iff_getElem?.mp member
  have inDomain := inside index input held
  rw [Array.getD_eq_getD_getElem?, Circuit.wholeBox_getElem?.mpr ⟨input, held, rfl⟩] at inDomain
  exact Int.le_trans inDomain.1 inDomain.2

theorem not_solves_of_solve (boolean : ∀ formula ∈ formulas, formula.IsBoolean)
    (compiled : ofFormulas formulas = .ok problem) {budget : Nat} {effort : Effort}
    (answer : problem.solve budget = (.unsat, effort)) : ¬ valuation.Solves formulas := by
  intro solves
  obtain ⟨solved, inside⟩ := solved_of_solves boolean compiled solves
  have wellFormed := (represents_ofFormulas boolean compiled).wellFormed
  refine not_inside_of_explore wellFormed solved answer ?_ _ List.mem_cons_self inside
  simpa using isBox_of_inside inside

/-- A formula none of whose conjuncts is false is true or its arithmetic
overflows. -/
theorem evaluate_of_conjuncts (boolean : ∀ formula ∈ formulas, formula.IsBoolean)
    (compiled : ofFormulas formulas = .ok problem) {formula : Formula}
    (member : formula ∈ formulas) (suits : valuation.Suits formula)
    (notFalse : ∀ conjunct ∈ formula.conjuncts, ∀ root ∈ problem.roots,
      problem.circuit.RootOf conjunct root → ¬ conjunct.EvaluatesTo valuation (.bool false)) :
    formula.evaluate valuation = .ok (.bool true) ∨
      ∃ fault, formula.evaluate valuation = .error (.overflow fault) := by
  have represents := represents_ofFormulas boolean compiled
  have rooted : ∀ conjunct ∈ formula.conjuncts, ∃ root ∈ problem.roots,
      problem.circuit.RootOf conjunct root := fun conjunct inConjuncts =>
    represents.rooted conjunct (List.mem_flatMap.mpr ⟨formula, member, inConjuncts⟩)
  have free : formula.PrimeFree := Formula.primeFree_of_conjuncts fun conjunct inConjuncts => by
    obtain ⟨root, -, rootOf⟩ := rooted conjunct inConjuncts
    exact rootOf.realized.primeFree
  refine (Formula.evaluate_of_isBoolean (boolean formula member) free suits).imp_left ?_
  rintro ⟨holds, evaluated⟩
  cases holds with
  | true => exact evaluated
  | false =>
      obtain ⟨conjunct, inConjuncts, isFalse⟩ :=
        ((formula.evaluate_eq_ok_iff _).mp evaluated).exists_conjunct
      obtain ⟨root, inRoots, rootOf⟩ := rooted conjunct inConjuncts
      exact absurd isFalse (notFalse conjunct inConjuncts root inRoots rootOf)

/-- A conjunct whose root is true on the whole box is not false at its points. -/
theorem not_false_of_isTrue (boolean : ∀ formula ∈ formulas, formula.IsBoolean)
    (compiled : ofFormulas formulas = .ok problem) {box : Box}
    (isBox : problem.circuit.IsBox box) (inside : problem.circuit.Inside box valuation.number)
    {formula conjunct : Formula} (member : formula ∈ formulas) (suits : valuation.Suits formula)
    (inConjuncts : conjunct ∈ formula.conjuncts) {root : Root}
    (rootOf : problem.circuit.RootOf conjunct root)
    (isTrue : ((problem.circuit.enclose box).interval root.gate).isTrue = true) :
    ¬ conjunct.EvaluatesTo valuation (.bool false) := by
  intro isFalse
  have conjunctSuits : valuation.Suits conjunct := fun symbol mentions =>
    suits symbol ((formula.mentions_iff_conjuncts symbol).mpr ⟨conjunct, inConjuncts, mentions⟩)
  have wellFormed := (represents_ofFormulas boolean compiled).wellFormed
  have yields := rootOf.realized.yields (hasSort_conjuncts (boolean formula member) inConjuncts)
    conjunctSuits isFalse
  have one := Interval.eq_one_of_isTrue isTrue (yields.mem_enclose wellFormed isBox inside)
  exact absurd one (by decide)

theorem admits_valuation (boolean : ∀ formula ∈ formulas, formula.IsBoolean)
    (compiled : ofFormulas formulas = .ok problem) {box : Box}
    (isBox : problem.circuit.IsBox box) :
    problem.circuit.Inside box
        (Valuation.number (SortedMap.ofList (problem.circuit.valuation box))) ∧
      ∀ formula ∈ formulas,
        Valuation.Admits (SortedMap.ofList (problem.circuit.valuation box)) formula := by
  have represents := represents_ofFormulas boolean compiled
  constructor
  · intro index input held
    obtain ⟨value, bound, -, member⟩ :=
      Circuit.get?_valuation represents.wellFormed isBox held
    rw [Valuation.number_of_get? bound]
    exact member
  · intro formula member symbol mentions
    obtain ⟨index, input, held, rfl⟩ := represents.exists_input member mentions
    obtain ⟨value, bound, contains, -⟩ :=
      Circuit.get?_valuation represents.wellFormed isBox held
    exact ⟨value, bound, contains⟩

theorem isBox_of_proper (boolean : ∀ formula ∈ formulas, formula.IsBoolean)
    (compiled : ofFormulas formulas = .ok problem)
    (proper : ∀ formula ∈ formulas, formula.Proper) :
    problem.circuit.IsBox problem.circuit.wholeBox := by
  have represents := represents_ofFormulas boolean compiled
  refine Circuit.isBox_wholeBox fun input inInputs => ?_
  obtain ⟨conjunct, member, mentions⟩ := represents.named input inInputs
  obtain ⟨formula, inFormulas, inConjuncts⟩ := List.mem_flatMap.mp member
  obtain ⟨index, held⟩ := Array.mem_iff_getElem?.mp inInputs
  have finite := represents.wellFormed.finite index input held
  refine Domain.Proper.ordered (proper formula inFormulas input.symbol ?_) finite
  exact (formula.mentions_iff_conjuncts _).mpr ⟨conjunct, inConjuncts, mentions⟩

end Problem

namespace Solver

variable {solver checked : Solver}

/-! ## Checks -/

theorem check_eq_ok {status : Status} (answered : solver.check = .ok (status, checked)) :
    ∃ problem answer effort, Problem.ofFormulas solver.formulas = .ok problem ∧
      problem.solve solver.limits.maxDecisions = (answer, effort) ∧
      status = (lastCheck problem answer).status ∧
      checked.last = some (lastCheck problem answer) ∧
      checked.assertions = solver.assertions ∧ checked.scopes = solver.scopes ∧
      checked.limits = solver.limits ∧ checked.id = solver.id ∧
      checked.nextMarker = solver.nextMarker := by
  simp only [check, Outcome.bind_eq_ok_iff, Outcome.mapError_eq_ok_iff,
    Outcome.pure_eq_ok_iff, Prod.mk.injEq] at answered
  obtain ⟨problem, compiled, rfl, rfl⟩ := answered
  refine ⟨problem, _, _, compiled, rfl, rfl, ?_⟩
  split <;> exact ⟨rfl, rfl, rfl, rfl, rfl, rfl⟩

private theorem eq_unsat_of_status {problem : Problem} {answer : Problem.Answer}
    (status : (lastCheck problem answer).status = .unsat) : answer = .unsat := by
  cases answer with
  | sat | unknown => simp [lastCheck, LastCheck.status] at status
  | unsat => rfl

private theorem eq_sat_of_status {problem : Problem} {answer : Problem.Answer}
    (status : (lastCheck problem answer).status = .sat) : ∃ box, answer = .sat box := by
  cases answer with
  | sat box => exact ⟨box, rfl⟩
  | unsat | unknown => simp [lastCheck, LastCheck.status] at status

theorem not_solves_of_check
    (assertable : ∀ formula ∈ solver.formulas, Assertable formula)
    (answered : solver.check = .ok (.unsat, checked)) (valuation : Valuation) :
    ¬ valuation.Solves solver.formulas := by
  obtain ⟨problem, answer, effort, compiled, solved, status, -⟩ := check_eq_ok answered
  obtain rfl := eq_unsat_of_status status.symm
  exact Problem.not_solves_of_solve (fun formula member => (assertable formula member).isBoolean)
    compiled solved

theorem exists_found_of_check (answered : solver.check = .ok (.sat, checked)) :
    ∃ problem box effort, Problem.ofFormulas solver.formulas = .ok problem ∧
      problem.solve solver.limits.maxDecisions = (.sat box, effort) ∧
      checked.model = .ok (SortedMap.ofList (problem.circuit.valuation box)) := by
  obtain ⟨problem, answer, effort, compiled, solved, status, last, -⟩ := check_eq_ok answered
  obtain ⟨box, rfl⟩ := eq_sat_of_status status.symm
  exact ⟨problem, box, effort, compiled, solved, by simp [model, last, lastCheck]⟩

theorem exists_box_of_check
    (assertable : ∀ formula ∈ solver.formulas, Assertable formula)
    (proper : ∀ formula ∈ solver.formulas, formula.Proper)
    (answered : solver.check = .ok (.sat, checked)) :
    ∃ problem box, Problem.ofFormulas solver.formulas = .ok problem ∧
      checked.model = .ok (SortedMap.ofList (problem.circuit.valuation box)) ∧
      problem.circuit.IsBox box ∧ ∀ root ∈ problem.roots,
        ((problem.circuit.enclose box).interval root.gate).isTrue = true := by
  obtain ⟨problem, box, effort, compiled, solved, found⟩ := exists_found_of_check answered
  obtain ⟨isBox, isTrue⟩ := Problem.isTrue_of_explore solved
    (List.forall_mem_singleton.mpr (Problem.isBox_of_proper
      (fun formula member => (assertable formula member).isBoolean) compiled proper))
  exact ⟨problem, box, compiled, found, isBox, isTrue⟩

theorem exists_model_of_check
    (assertable : ∀ formula ∈ solver.formulas, Assertable formula)
    (proper : ∀ formula ∈ solver.formulas, formula.Proper)
    (answered : solver.check = .ok (.sat, checked)) :
    ∃ model, checked.model = .ok model ∧ ∀ formula ∈ solver.formulas,
      model.Admits formula ∧ (formula.evaluate model = .ok (.bool true) ∨
        ∃ fault, formula.evaluate model = .error (.overflow fault)) := by
  obtain ⟨problem, box, compiled, found, isBox, isTrue⟩ :=
    exists_box_of_check assertable proper answered
  have boolean : ∀ formula ∈ solver.formulas, formula.IsBoolean :=
    fun formula member => (assertable formula member).isBoolean
  obtain ⟨inside, admits⟩ := Problem.admits_valuation boolean compiled isBox
  refine ⟨_, found, fun formula member => ⟨admits formula member, ?_⟩⟩
  have suits := (admits formula member).suits
  exact Problem.evaluate_of_conjuncts boolean compiled member suits
    fun conjunct inConjuncts root inRoots rootOf => Problem.not_false_of_isTrue boolean compiled
      isBox inside member suits inConjuncts rootOf (isTrue root inRoots)

theorem mentions_of_model
    (assertable : ∀ formula ∈ solver.formulas, Assertable formula)
    (answered : solver.check = .ok (.sat, checked)) {model : Valuation}
    (found : checked.model = .ok model) {symbol : Symbol} {value : Value}
    (bound : model.get? symbol = some value) :
    ∃ formula ∈ solver.formulas, formula.Mentions symbol := by
  obtain ⟨problem, box, effort, compiled, -, isFound⟩ := exists_found_of_check answered
  have represents := Problem.represents_ofFormulas
    (fun formula member => (assertable formula member).isBoolean) compiled
  have isModel : SortedMap.ofList (problem.circuit.valuation box) = model :=
    Except.ok.inj (isFound.symm.trans found)
  obtain ⟨index, input, interval, held, -, rfl, -⟩ :=
    Circuit.mem_valuation.mp (SortedMap.mem_of_get?_ofList (isModel ▸ bound))
  obtain ⟨conjunct, inFlat, mentions⟩ := represents.named input (Array.mem_of_getElem? held)
  obtain ⟨formula, member, inConjuncts⟩ := List.mem_flatMap.mp inFlat
  exact ⟨formula, member, (formula.mentions_iff_conjuncts _).mpr ⟨conjunct, inConjuncts, mentions⟩⟩

end Solver

end SymbolicSafety
