import SymbolicSafety.Proofs.Compilation

namespace SymbolicSafety

/-! A formula and its gate agree: where the formula has a value, the gate yields
its number. The roots of a problem stand for its conjuncts. -/

/-! ## Checked arithmetic -/

private theorem running_of_foldlM {combine? : Int64 → Int64 → Option Int64}
    {combine : Int → Int → Int}
    (exact : ∀ left right result, combine? left right = some result →
      result.toInt = combine left.toInt right.toInt)
    {values : List Int64} {start total : Int64}
    (folded : values.foldlM combine? start = some total) :
    Running Small combine start.toInt (values.map Int64.toInt) ∧
      total.toInt = (values.map Int64.toInt).foldl combine start.toInt := by
  induction values generalizing start with
  | nil =>
      simp only [List.foldlM_nil, Option.pure_def, Option.some.injEq] at folded
      exact ⟨trivial, by simp [folded]⟩
  | cons head rest induction =>
      simp only [List.foldlM_cons, Option.bind_eq_bind, Option.bind_eq_some_iff] at folded
      obtain ⟨next, combined, continued⟩ := folded
      rw [List.map_cons, List.foldl_cons, Running, ← exact _ _ _ combined]
      obtain ⟨running, final⟩ := induction continued
      exact ⟨⟨small_toInt next, running⟩, final⟩

namespace Circuit

variable {circuit : Circuit} {valuation : Valuation}

/-! ## The number of a formula -/

private theorem exists_numberOf (circuit : Circuit) (numbers : Symbol → Int) :
    ∃ numberOf : Nat → Int, ∀ gate number, circuit.Yields numbers gate number →
      numberOf gate = number := by
  classical
  refine ⟨fun gate => if yields : ∃ number, circuit.Yields numbers gate number then
    yields.choose else 0, fun gate number yields => ?_⟩
  have some : ∃ number, circuit.Yields numbers gate number := ⟨number, yields⟩
  simp only [some, dif_pos]
  exact some.choose_spec.unique yields

private theorem RealizesAll.map_numbers {numbers : Symbol → Int} {value : Formula → Int}
    {numberOf : Nat → Int}
    (agrees : ∀ gate number, circuit.Yields numbers gate number → numberOf gate = number)
    {formulas : List Formula} {gates : List Nat} (realized : circuit.RealizesAll formulas gates)
    (each : ∀ formula ∈ formulas, ∀ gate, circuit.Realizes formula gate →
      circuit.Yields numbers gate (value formula)) :
    gates.map numberOf = formulas.map value := by
  induction formulas generalizing gates with
  | nil => simp [show gates = [] from realized]
  | cons head rest induction =>
      obtain ⟨gate, later, rfl, headRealized, others⟩ := realized
      rw [List.forall_mem_cons] at each
      rw [List.map_cons, List.map_cons, agrees gate _ (each.1 gate headRealized),
        induction others each.2]

private theorem yields_pair {numbers : Symbol → Int} {left right gate : Nat} {first second : Int}
    (found : circuit.gates[gate]? = some (.sum [left, right]))
    (leftYields : circuit.Yields numbers left first)
    (rightYields : circuit.Yields numbers right second) (small : Small (first + second)) :
    circuit.Yields numbers gate (first + second) := by
  obtain ⟨numberOf, agrees⟩ := exists_numberOf circuit numbers
  have firstNumber := agrees left first leftYields
  have secondNumber := agrees right second rightYields
  have total : ([left, right].map numberOf).foldl (· + ·) 0 = first + second := by
    simp [firstNumber, secondNumber]
  rw [← total]
  refine .sum found ?_ ?_
  · simpa [firstNumber, secondNumber] using ⟨leftYields, rightYields⟩
  · simpa [Running, firstNumber, secondNumber] using ⟨leftYields.small, small⟩

/-- A binary operator that looks at both operands gives the number of its
result. Equality is the same on values of one sort as on their numbers. -/
private theorem Joins.yields {op : BinaryOp} {left right gate : Nat} {first second result : Value}
    {numbers : Symbol → Int} (joins : circuit.Joins op left right gate)
    (strict : op ≠ .implies) (sort : first.sort = second.sort)
    (leftYields : circuit.Yields numbers left first.number)
    (rightYields : circuit.Yields numbers right second.number)
    (applied : op.result? first second = some result) :
    circuit.Yields numbers gate result.number := by
  have compared {comparison : Comparison} {left right : Nat} {first second : Int} {holds : Bool}
      (found : circuit.gates[gate]? = some (.compare comparison left right))
      (leftYields : circuit.Yields numbers left first)
      (rightYields : circuit.Yields numbers right second)
      (same : comparison.holds first second = holds) :
      circuit.Yields numbers gate (Value.bool holds).number :=
    same ▸ .compare found leftYields rightYields
  have sameNumber : first.number = second.number ↔ first = second :=
    ⟨Value.eq_of_number_eq sort, fun equal => equal ▸ rfl⟩
  cases op with
  | implies => exact absurd rfl strict
  | eq =>
      simp only [BinaryOp.result?, Option.some.injEq] at applied
      subst applied
      exact compared joins leftYields rightYields (by simp [Comparison.holds, sameNumber])
  | neq =>
      simp only [BinaryOp.result?, Option.some.injEq] at applied
      subst applied
      exact compared joins leftYields rightYields (by simp [Comparison.holds, sameNumber])
  | iff =>
      cases first <;> cases second <;> simp [BinaryOp.result?] at applied
      subst applied
      simp only [Value.bool.injEq] at sameNumber
      exact compared joins leftYields rightYields (by simp only [Comparison.holds, sameNumber])
  | lt =>
      cases first <;> cases second <;> simp [BinaryOp.result?] at applied
      subst applied
      exact compared joins leftYields rightYields
        (decide_eq_decide.mpr Int64.lt_iff_toInt_lt.symm)
  | leq =>
      cases first <;> cases second <;> simp [BinaryOp.result?] at applied
      subst applied
      exact compared joins leftYields rightYields
        (decide_eq_decide.mpr Int64.le_iff_toInt_le.symm)
  | gt =>
      cases first <;> cases second <;> simp [BinaryOp.result?] at applied
      subst applied
      exact compared joins rightYields leftYields
        (decide_eq_decide.mpr Int64.lt_iff_toInt_lt.symm)
  | geq =>
      cases first <;> cases second <;> simp [BinaryOp.result?] at applied
      subst applied
      exact compared joins rightYields leftYields
        (decide_eq_decide.mpr Int64.le_iff_toInt_le.symm)
  | sub =>
      cases first <;> cases second <;> simp [BinaryOp.result?] at applied
      obtain ⟨result, difference, rfl⟩ := applied
      obtain ⟨negated, below, found⟩ := joins
      have total := (Word.ofInt?_eq_some_iff _ _).mp difference
      have small := small_toInt result
      simp only [Value.number, Int.sub_eq_add_neg] at total leftYields rightYields ⊢
      rw [total] at small ⊢
      exact yields_pair found leftYields (.neg below rightYields) small
  | div =>
      cases first <;> cases second <;> simp [BinaryOp.result?] at applied
      obtain ⟨result, quotient, rfl⟩ := applied
      have equal := (Word.div?_eq_some_iff _ _ _).mp quotient
      have small := small_toInt result
      simp only [Value.number] at leftYields rightYields ⊢
      rw [equal] at small ⊢
      exact .div joins leftYields rightYields small
  | mod =>
      cases first <;> cases second <;> simp [BinaryOp.result?] at applied
      obtain ⟨result, remainder, rfl⟩ := applied
      have equal := Word.mod?_eq_some_of remainder
      have small := small_toInt result
      simp only [Value.number] at leftYields rightYields ⊢
      rw [equal] at small ⊢
      exact .mod joins leftYields rightYields small

private theorem RealizesAll.exists_numbers {numbers : Symbol → Int}
    {combine? : Int64 → Int64 → Option Int64} {combine : Int → Int → Int}
    (exact : ∀ left right result, combine? left right = some result →
      result.toInt = combine left.toInt right.toInt)
    {operands : List Formula} {gates : List Nat} {value : Formula → Int64} {start total : Int64}
    (realized : circuit.RealizesAll operands gates)
    (each : ∀ operand ∈ operands, ∀ gate, circuit.Realizes operand gate →
      circuit.Yields numbers gate (value operand).toInt)
    (folded : (operands.map value).foldlM combine? start = some total) :
    ∃ numberOf : Nat → Int, (∀ gate ∈ gates, circuit.Yields numbers gate (numberOf gate)) ∧
      Running Small combine start.toInt (gates.map numberOf) ∧
      total.toInt = (gates.map numberOf).foldl combine start.toInt := by
  obtain ⟨numberOf, agrees⟩ := exists_numberOf circuit numbers
  have sameNumbers : gates.map numberOf = (operands.map value).map Int64.toInt := by
    rw [realized.map_numbers agrees each, List.map_map]
    rfl
  refine ⟨numberOf, realized.forall_gates fun operand member gate operandRealized => ?_,
    sameNumbers ▸ running_of_foldlM exact folded⟩
  have yields := each operand member gate operandRealized
  exact agrees gate _ yields ▸ yields

/-- Where a formula has a value, its gate yields the number of that value. -/
theorem Realizes.yields {formula : Formula} {gate : Nat} {sort : ValueSort} {value : Value}
    (realized : circuit.Realizes formula gate) (typed : formula.HasSort sort)
    (suited : valuation.Suits formula) (evaluated : formula.EvaluatesTo valuation value) :
    circuit.Yields valuation.number gate value.number := by
  induction evaluated generalizing gate sort with
  | bool value =>
      refine .constant ?_ (small_truth value)
      cases value <;> exact realized
  | int value => exact .constant realized (small_toInt value)
  | @symbol name value bound =>
      obtain ⟨index, input, found, held, rfl⟩ := realized
      have number := Valuation.number_of_get? bound
      have yields : circuit.Yields valuation.number gate (valuation.number input.symbol) :=
        .input found held (number ▸ value.small_number)
      exact number ▸ yields
  | not _ operandCase =>
      obtain ⟨below, operandRealized, found⟩ := realized
      cases typed with
      | not operandTyped =>
          exact .not found (operandCase operandRealized operandTyped
            (suited.child (by simp [Formula.children])))
  | neg _ negated operandCase =>
      obtain ⟨below, operandRealized, found⟩ := realized
      cases typed with
      | neg operandTyped =>
          have operand := operandCase operandRealized operandTyped
            (suited.child (by simp [Formula.children]))
          rw [Value.number, (Word.ofInt?_eq_some_iff _ _).mp negated]
          exact .neg found operand
  | vacuous _ leftCase =>
      obtain ⟨first, second, leftRealized, -, negated, below, found⟩ := realized
      cases typed with
      | binary sorts leftTyped rightTyped =>
          have left := leftCase leftRealized leftTyped (suited.child (by simp [Formula.children]))
          have negatedLeft : circuit.Yields valuation.number negated (!false).toInt :=
            .not below left
          exact .any found List.mem_cons_self negatedLeft
  | @implied _ _ holds _ _ leftCase rightCase =>
      obtain ⟨first, second, leftRealized, rightRealized, negated, below, found⟩ := realized
      cases typed with
      | binary sorts leftTyped rightTyped =>
          have left := leftCase leftRealized leftTyped (suited.child (by simp [Formula.children]))
          have right :=
            rightCase rightRealized rightTyped (suited.child (by simp [Formula.children]))
          have negatedLeft : circuit.Yields valuation.number negated (!true).toInt :=
            .not below left
          cases holds with
          | true => exact .any found (List.mem_cons_of_mem _ List.mem_cons_self) right
          | false => exact .none found (by simpa using ⟨negatedLeft, right⟩)
  | binary strict leftEvaluated rightEvaluated applied leftCase rightCase =>
      obtain ⟨first, second, leftRealized, rightRealized, joins⟩ := realized
      cases typed with
      | binary sorts leftTyped rightTyped =>
          obtain rfl := sorts.same
          have leftSuited := suited.child List.mem_cons_self
          have rightSuited := suited.child (List.mem_cons_of_mem _ List.mem_cons_self)
          have leftSort := leftEvaluated.sort_eq leftTyped leftRealized.primeFree leftSuited
          have rightSort := rightEvaluated.sort_eq rightTyped rightRealized.primeFree rightSuited
          exact joins.yields strict (leftSort.trans rightSort.symm)
            (leftCase leftRealized leftTyped leftSuited)
            (rightCase rightRealized rightTyped rightSuited) applied
  | all _ operandCases =>
      obtain ⟨below, operandsRealized, found⟩ := realized
      obtain ⟨-, each⟩ := (Formula.hasSort_nary_iff _ _ _).mp typed
      exact .all found (operandsRealized.forall_gates fun operand member _ operandRealized =>
        operandCases operand member operandRealized (each operand member) (suited.child member))
  | @notAll _ _ _ operand split _ _ _ operandCase =>
      obtain ⟨below, operandsRealized, found⟩ := realized
      obtain ⟨-, each⟩ := (Formula.hasSort_nary_iff _ _ _).mp typed
      have inOperands : operand ∈ _ := split ▸ List.mem_append_right _ List.mem_cons_self
      obtain ⟨gate, member, operandRealized⟩ := operandsRealized.exists_gate inOperands
      exact .notAll found member (operandCase operandRealized (each operand inOperands)
        (suited.child inOperands))
  | @any _ _ _ operand split _ _ _ operandCase =>
      obtain ⟨below, operandsRealized, found⟩ := realized
      obtain ⟨-, each⟩ := (Formula.hasSort_nary_iff _ _ _).mp typed
      have inOperands : operand ∈ _ := split ▸ List.mem_append_right _ List.mem_cons_self
      obtain ⟨gate, member, operandRealized⟩ := operandsRealized.exists_gate inOperands
      exact .any found member (operandCase operandRealized (each operand inOperands)
        (suited.child inOperands))
  | none _ operandCases =>
      obtain ⟨below, operandsRealized, found⟩ := realized
      obtain ⟨-, each⟩ := (Formula.hasSort_nary_iff _ _ _).mp typed
      exact .none found (operandsRealized.forall_gates fun operand member _ operandRealized =>
        operandCases operand member operandRealized (each operand member) (suited.child member))
  | sum _ folded operandCases =>
      obtain ⟨below, operandsRealized, found⟩ := realized
      obtain ⟨-, each⟩ := (Formula.hasSort_nary_iff _ _ _).mp typed
      obtain ⟨numberOf, yields, running, total⟩ := operandsRealized.exists_numbers
        (fun _ _ _ added => (Word.ofInt?_eq_some_iff _ _).mp added)
        (fun operand member _ operandRealized => operandCases operand member operandRealized
          (each operand member) (suited.child member)) folded
      rw [Value.number, total]
      exact .sum found yields running
  | product _ folded operandCases =>
      obtain ⟨below, operandsRealized, found⟩ := realized
      obtain ⟨-, each⟩ := (Formula.hasSort_nary_iff _ _ _).mp typed
      obtain ⟨numberOf, yields, running, total⟩ := operandsRealized.exists_numbers
        (fun _ _ _ multiplied => (Word.ofInt?_eq_some_iff _ _).mp multiplied)
        (fun operand member _ operandRealized => operandCases operand member operandRealized
          (each operand member) (suited.child member)) folded
      rw [Value.number, total]
      exact .product found yields running
  | consequent _ _ conditionCase consequentCase =>
      obtain ⟨first, second, third, conditionRealized, consequentRealized, -, found⟩ := realized
      cases typed with
      | ite conditionTyped consequentTyped alternativeTyped =>
          exact .consequent found
            (conditionCase conditionRealized conditionTyped
              (suited.child (by simp [Formula.children])))
            (consequentCase consequentRealized consequentTyped
              (suited.child (by simp [Formula.children])))
  | alternative _ _ conditionCase alternativeCase =>
      obtain ⟨first, second, third, conditionRealized, -, alternativeRealized, found⟩ := realized
      cases typed with
      | ite conditionTyped consequentTyped alternativeTyped =>
          exact .alternative found
            (conditionCase conditionRealized conditionTyped
              (suited.child (by simp [Formula.children])))
            (alternativeCase alternativeRealized alternativeTyped
              (suited.child (by simp [Formula.children])))

/-! ## Roots -/

theorem inputOf?_eq_some_iff (wellFormed : circuit.WellFormed) (symbol : Symbol) (index : Nat) :
    circuit.inputOf? symbol = some index ↔
      ∃ input, circuit.inputs[index]? = some input ∧ input.symbol = symbol := by
  rw [inputOf?, Array.findIdx?_eq_some_iff_getElem]
  constructor
  · rintro ⟨less, named, -⟩
    exact ⟨circuit.inputs[index], by simp [less], by simpa using named⟩
  · rintro ⟨input, held, rfl⟩
    obtain ⟨less, equal⟩ := Array.getElem?_eq_some_iff.mp held
    refine ⟨less, by simp [equal], fun earlier before => ?_⟩
    have held' : circuit.inputs[earlier]? = some circuit.inputs[earlier] := by simp
    have different : circuit.inputs[earlier].symbol ≠ input.symbol := fun same =>
      Nat.ne_of_lt before (wellFormed.distinct _ _ _ _ held' held same)
    simpa using different

structure RootOf (circuit : Circuit) (conjunct : Formula) (root : Root) : Prop where
  realized : circuit.Realizes conjunct root.gate
  inputs : ∀ index, index ∈ root.inputs ↔
    ∃ input, circuit.inputs[index]? = some input ∧ conjunct.Mentions input.symbol

theorem RootOf.extend {larger : Circuit} (extended : circuit.Extends larger)
    (wellFormed : larger.WellFormed) {conjunct : Formula} {root : Root}
    (rooted : circuit.RootOf conjunct root) : larger.RootOf conjunct root where
  realized := rooted.realized.extend extended
  inputs index := by
    rw [rooted.inputs]
    constructor
    · rintro ⟨input, held, mentions⟩
      exact ⟨input, extended.inputs _ _ held, mentions⟩
    · rintro ⟨input, held, mentions⟩
      obtain ⟨index', input', held', same⟩ := rooted.realized.exists_input mentions
      have equal := wellFormed.distinct _ _ _ _ (extended.inputs _ _ held') held same
      exact ⟨input', equal ▸ held', same ▸ mentions⟩

end Circuit

namespace Problem

/-- The roots of the problem are the conjuncts, and its inputs their symbols. -/
structure Represents (problem : Problem) (conjuncts : List Formula) : Prop where
  wellFormed : problem.circuit.WellFormed
  rooted : ∀ conjunct ∈ conjuncts, ∃ root ∈ problem.roots, problem.circuit.RootOf conjunct root
  justified : ∀ root ∈ problem.roots, ∃ conjunct ∈ conjuncts, problem.circuit.RootOf conjunct root
  named : ∀ input ∈ problem.circuit.inputs, ∃ conjunct ∈ conjuncts,
    conjunct.Mentions input.symbol

theorem represents_empty : empty.Represents [] where
  wellFormed := ⟨by simp [empty, Circuit.empty], by simp [empty, Circuit.empty],
    by simp [empty, Circuit.empty], by simp [empty, Circuit.empty]⟩
  rooted := by simp
  justified := by simp [empty]
  named := by simp [empty, Circuit.empty]

theorem Represents.addConjunct {problem larger : Problem} {conjuncts : List Formula}
    {conjunct : Formula} (represents : problem.Represents conjuncts)
    (typed : conjunct.HasSort .bool) (added : problem.addConjunct conjunct = .ok larger) :
    larger.Represents (conjuncts ++ [conjunct]) := by
  simp only [Problem.addConjunct, Outcome.bind_eq_ok_iff, Outcome.pure_eq_ok_iff,
    Prod.exists] at added
  obtain ⟨circuit, gate, formulaAdded, rfl⟩ := added
  obtain ⟨grows, realized⟩ := Circuit.addFormula_spec typed represents.wellFormed formulaAdded
  have last : circuit.RootOf conjunct
      ⟨gate, (conjunct.symbols.keys.filterMap circuit.inputOf?).mergeSort⟩ := by
    refine ⟨realized, fun index => ?_⟩
    simp only [List.mem_mergeSort, List.mem_filterMap, Formula.mem_symbols_iff,
      Circuit.inputOf?_eq_some_iff grows.wellFormed]
    constructor
    · rintro ⟨symbol, mentions, input, held, rfl⟩
      exact ⟨input, held, mentions⟩
    · rintro ⟨input, held, mentions⟩
      exact ⟨input.symbol, mentions, input, held, rfl⟩
  refine ⟨grows.wellFormed, fun formula member => ?_, fun root member => ?_,
    fun input member => ?_⟩
  · rcases List.mem_append.mp member with earlier | isLast
    · obtain ⟨root, inRoots, rooted⟩ := represents.rooted formula earlier
      exact ⟨root, List.mem_append_left _ inRoots, rooted.extend grows.extended grows.wellFormed⟩
    · obtain rfl := List.mem_singleton.mp isLast
      exact ⟨_, List.mem_append_right _ List.mem_cons_self, last⟩
  · rcases List.mem_append.mp member with earlier | isLast
    · obtain ⟨formula, inConjuncts, rooted⟩ := represents.justified root earlier
      exact ⟨formula, List.mem_append_left _ inConjuncts,
        rooted.extend grows.extended grows.wellFormed⟩
    · obtain rfl := List.mem_singleton.mp isLast
      exact ⟨conjunct, List.mem_append_right _ List.mem_cons_self, last⟩
  · rcases grows.named input member with earlier | mentions
    · obtain ⟨formula, inConjuncts, mentions⟩ := represents.named input earlier
      exact ⟨formula, List.mem_append_left _ inConjuncts, mentions⟩
    · exact ⟨conjunct, List.mem_append_right _ List.mem_cons_self, mentions⟩

theorem Represents.foldlM {problem result : Problem} {conjuncts added : List Formula}
    (represents : problem.Represents conjuncts) (typed : ∀ conjunct ∈ added, conjunct.HasSort .bool)
    (folded : added.foldlM Problem.addConjunct problem = .ok result) :
    result.Represents (conjuncts ++ added) := by
  induction added generalizing problem conjuncts with
  | nil =>
      simp only [List.foldlM_nil, Outcome.pure_eq_ok_iff] at folded
      simpa [← folded] using represents
  | cons head rest induction =>
      simp only [List.foldlM_cons, Outcome.bind_eq_ok_iff] at folded
      obtain ⟨next, headAdded, continued⟩ := folded
      rw [List.forall_mem_cons] at typed
      have step := represents.addConjunct typed.1 headAdded
      simpa using induction step typed.2 continued

theorem hasSort_conjuncts {formula conjunct : Formula} (boolean : formula.IsBoolean)
    (member : conjunct ∈ formula.conjuncts) : conjunct.HasSort .bool := by
  have typed := (Formula.inferSort_eq_ok_iff formula .bool).mp boolean
  unfold Formula.conjuncts at member
  split at member
  next operands => exact ((Formula.hasSort_nary_iff _ _ _).mp typed).2 conjunct member
  next => exact List.mem_singleton.mp member ▸ typed

theorem represents_ofFormulas {formulas : List Formula} {problem : Problem}
    (boolean : ∀ formula ∈ formulas, formula.IsBoolean)
    (compiled : ofFormulas formulas = .ok problem) :
    problem.Represents (formulas.flatMap Formula.conjuncts) := by
  refine represents_empty.foldlM (fun conjunct member => ?_) compiled
  obtain ⟨formula, inFormulas, inConjuncts⟩ := List.mem_flatMap.mp member
  exact hasSort_conjuncts (boolean formula inFormulas) inConjuncts

end Problem

end SymbolicSafety
