import SymbolicSafety.Proofs.ProblemMeaning

namespace SymbolicSafety

/-! Boxes that leave nothing open. Where the inputs of a formula are fixed and the
formula has a value, the bounds of its gate are just that value. Parts of the
formula that are not evaluated may be unknown all the same. -/

namespace Interval

theorem isPoint_iff (interval : Interval) :
    interval.isPoint = true ↔ interval.lo = interval.hi := by
  simp [isPoint]

@[simp] theorem isPoint_point (value : Int) : (point value).isPoint = true := by
  simp [isPoint, point]

theorem isPoint_of_width {interval : Interval} (fixed : interval.width = 0) :
    interval.isPoint = true := by
  rw [isPoint_iff]
  rw [width, Int.natAbs_eq_zero] at fixed
  omega

variable {left right : Interval}

theorem isPoint_not (isPoint : left.isPoint = true) : left.not.isPoint = true := by
  rw [isPoint_iff] at *
  simp only [not, isPoint]

theorem isPoint_neg (isPoint : left.isPoint = true) : left.neg.isPoint = true := by
  rw [isPoint_iff] at *
  simp only [neg, isPoint]

theorem isPoint_and (first : left.isPoint = true) (second : right.isPoint = true) :
    (left.and right).isPoint = true := by
  rw [isPoint_iff] at *
  simp only [and, first, second]

theorem isPoint_or (first : left.isPoint = true) (second : right.isPoint = true) :
    (left.or right).isPoint = true := by
  rw [isPoint_iff] at *
  simp only [or, first, second]

theorem isPoint_add (first : left.isPoint = true) (second : right.isPoint = true) :
    (left.add right).isPoint = true := by
  rw [isPoint_iff] at *
  simp only [add, first, second]

theorem isPoint_mul (first : left.isPoint = true) (second : right.isPoint = true) :
    (left.mul right).isPoint = true := by
  rw [isPoint_iff] at *
  simp [mul, first, second]

theorem div_point {left right result : Int64} (divided : Word.div? left right = some result) :
    (point left.toInt).div (point right.toInt) = point result.toInt := by
  have first : Word.ofInt? left.toInt = some left := (Word.ofInt?_eq_some_iff _ _).mpr rfl
  have second : Word.ofInt? right.toInt = some right := (Word.ofInt?_eq_some_iff _ _).mpr rfl
  have quotient : divPoints? left.toInt right.toInt = some result.toInt := by
    simp [divPoints?, first, second, divided]
  rw [div, isPoint_point, isPoint_point]
  simp [point, quotient]

theorem mod_point {left right result : Int64} (divided : Word.mod? left right = some result) :
    (point left.toInt).mod (point right.toInt) = point result.toInt := by
  have first : Word.ofInt? left.toInt = some left := (Word.ofInt?_eq_some_iff _ _).mpr rfl
  have second : Word.ofInt? right.toInt = some right := (Word.ofInt?_eq_some_iff _ _).mpr rfl
  have remainder : modPoints? left.toInt right.toInt = some result.toInt := by
    simp [modPoints?, first, second, divided]
  rw [mod, isPoint_point, isPoint_point]
  simp [point, remainder]

end Interval

theorem Comparison.isPoint_evaluate (comparison : Comparison) {left right : Interval}
    (first : left.isPoint = true) (second : right.isPoint = true) :
    (comparison.evaluate left right).isPoint = true := by
  have settled : (comparison.decided left right).1 = true ∨
      (comparison.decided left right).2 = true := by
    rw [Interval.isPoint_iff] at first second
    obtain ⟨lo, hi⟩ := left
    obtain ⟨lo', hi'⟩ := right
    simp only at first second
    subst first second
    cases comparison <;> simp [decided, Interval.isPoint] <;> omega
  unfold evaluate
  split
  next => decide
  next => decide
  next undecided => simp [undecided] at settled

theorem Bounds.isPoint_foldl {bounds : Bounds} {join : Interval → Interval → Interval}
    (closed : ∀ {left right : Interval}, left.isPoint = true → right.isPoint = true →
      (join left right).isPoint = true)
    {gates : List Nat} {start : Interval} (first : start.isPoint = true)
    (each : ∀ gate ∈ gates, (bounds.interval gate).isPoint = true) :
    (gates.foldl (fun total gate => join total (bounds.interval gate)) start).isPoint = true := by
  induction gates generalizing start with
  | nil => exact first
  | cons gate rest induction =>
      obtain ⟨head, others⟩ := List.forall_mem_cons.mp each
      exact induction (closed first head) others

theorem Bounds.foldl_and_hi_le (bounds : Bounds) {gates : List Nat} {gate : Nat}
    (member : gate ∈ gates) (start : Interval) :
    (gates.foldl (fun all gate => all.and (bounds.interval gate)) start).hi ≤
      (bounds.interval gate).hi := by
  have atMost (gates : List Nat) (start : Interval) :
      (gates.foldl (fun all gate => all.and (bounds.interval gate)) start).hi ≤ start.hi := by
    induction gates generalizing start with
    | nil => exact Int.le_refl _
    | cons gate rest induction => exact Int.le_trans (induction _) (Int.min_le_left ..)
  obtain ⟨before, after, rfl⟩ := List.append_of_mem member
  rw [List.foldl_append, List.foldl_cons]
  exact Int.le_trans (atMost after _) (Int.min_le_right ..)

theorem Bounds.le_foldl_or_lo (bounds : Bounds) {gates : List Nat} {gate : Nat}
    (member : gate ∈ gates) (start : Interval) :
    (bounds.interval gate).lo ≤
      (gates.foldl (fun any gate => any.or (bounds.interval gate)) start).lo := by
  have atLeast (gates : List Nat) (start : Interval) :
      start.lo ≤ (gates.foldl (fun any gate => any.or (bounds.interval gate)) start).lo := by
    induction gates generalizing start with
    | nil => exact Int.le_refl _
    | cons gate rest induction => exact Int.le_trans (Int.le_max_left ..) (induction _)
  obtain ⟨before, after, rfl⟩ := List.append_of_mem member
  rw [List.foldl_append, List.foldl_cons]
  exact Int.le_trans (Int.le_max_right ..) (atLeast after _)

namespace Circuit

/-- The box has a single value for each symbol of the formula, and so has the
valuation. -/
structure Fixes (circuit : Circuit) (box : Box) (valuation : Valuation) (formula : Formula) :
    Prop where
  suits : valuation.Suits formula
  points : ∀ (index : Nat) (input : Input), circuit.inputs[index]? = some input →
    formula.Mentions input.symbol → (box.getD index .full).isPoint = true

variable {circuit : Circuit} {box : Box} {valuation : Valuation}

theorem Fixes.child {formula child : Formula} (fixed : circuit.Fixes box valuation formula)
    (member : child ∈ formula.children) : circuit.Fixes box valuation child where
  suits := fixed.suits.child member
  points index input held mentions := fixed.points index input held (.of_child member mentions)

section Exactness

variable (wellFormed : circuit.WellFormed)

include wellFormed

private theorem Joins.isPoint {op : BinaryOp} {left right gate : Nat} {first second result : Value}
    (joins : circuit.Joins op left right gate) (strict : op ≠ .implies)
    (applied : op.result? first second = some result)
    (leftPoint : (circuit.enclose box).interval left = .point first.number)
    (rightPoint : (circuit.enclose box).interval right = .point second.number) :
    ((circuit.enclose box).interval gate).isPoint = true := by
  have compared {comparison : Comparison} {left right : Nat} {first second : Int}
      (found : circuit.gates[gate]? = some (.compare comparison left right))
      (leftPoint : (circuit.enclose box).interval left = .point first)
      (rightPoint : (circuit.enclose box).interval right = .point second) :
      ((circuit.enclose box).interval gate).isPoint = true := by
    rw [interval_enclose wellFormed box found, Gate.enclose, leftPoint, rightPoint]
    exact comparison.isPoint_evaluate (Interval.isPoint_point _) (Interval.isPoint_point _)
  cases op with
  | implies => exact absurd rfl strict
  | iff | eq | neq | lt | leq => exact compared joins leftPoint rightPoint
  | gt | geq => exact compared joins rightPoint leftPoint
  | sub =>
      obtain ⟨negated, below, found⟩ := joins
      have negatedPoint : ((circuit.enclose box).interval negated).isPoint = true := by
        rw [interval_enclose wellFormed box below, Gate.enclose, rightPoint]
        exact Interval.isPoint_neg (Interval.isPoint_point _)
      rw [interval_enclose wellFormed box found]
      refine Bounds.isPoint_foldl Interval.isPoint_add (Interval.isPoint_point 0) ?_
      simpa [leftPoint] using negatedPoint
  | div =>
      have found : circuit.gates[gate]? = some (.div left right) := joins
      rw [interval_enclose wellFormed box found, Gate.enclose, leftPoint, rightPoint]
      cases first <;> cases second <;> simp [BinaryOp.result?] at applied
      obtain ⟨result, divided, rfl⟩ := applied
      simp only [Value.number, Interval.div_point divided, Interval.isPoint_point]
  | mod =>
      have found : circuit.gates[gate]? = some (.mod left right) := joins
      rw [interval_enclose wellFormed box found, Gate.enclose, leftPoint, rightPoint]
      cases first <;> cases second <;> simp [BinaryOp.result?] at applied
      obtain ⟨result, divided, rfl⟩ := applied
      simp only [Value.number, Interval.mod_point divided, Interval.isPoint_point]

private theorem isPoint_of_notAll {gate operand : Nat} {operands : List Nat}
    (found : circuit.gates[gate]? = some (.and operands)) (member : operand ∈ operands)
    (isFalse : (circuit.enclose box).interval operand = .point 0)
    (truth : ((circuit.enclose box).interval gate).IsTruth) :
    ((circuit.enclose box).interval gate).isPoint = true := by
  have low : ((circuit.enclose box).interval gate).hi ≤ 0 := by
    have below := Bounds.foldl_and_hi_le (circuit.enclose box) member .true
    rw [isFalse] at below
    rw [interval_enclose wellFormed box found]
    exact below
  rw [Interval.isPoint_iff]
  simp only [Interval.IsTruth] at truth
  omega

private theorem isPoint_of_any {gate operand : Nat} {operands : List Nat}
    (found : circuit.gates[gate]? = some (.or operands)) (member : operand ∈ operands)
    (isTrue : (circuit.enclose box).interval operand = .point 1)
    (truth : ((circuit.enclose box).interval gate).IsTruth) :
    ((circuit.enclose box).interval gate).isPoint = true := by
  have high : 1 ≤ ((circuit.enclose box).interval gate).lo := by
    have above := Bounds.le_foldl_or_lo (circuit.enclose box) member .false
    rw [isTrue] at above
    rw [interval_enclose wellFormed box found]
    exact above
  rw [Interval.isPoint_iff]
  simp only [Interval.IsTruth] at truth
  omega

variable {op : NaryOp} {operands : List Formula} {gate : Nat}

private theorem Realizes.isPoint_nary (realized : circuit.Realizes (.nary op operands) gate)
    (each : ∀ operand ∈ operands, ∀ below, circuit.Realizes operand below →
      ((circuit.enclose box).interval below).isPoint = true) :
    ((circuit.enclose box).interval gate).isPoint = true := by
  obtain ⟨below, operandsRealized, found⟩ := realized
  have points := operandsRealized.forall_gates each
  rw [interval_enclose wellFormed box found]
  cases op with
  | and => exact Bounds.isPoint_foldl Interval.isPoint_and (Interval.isPoint_point 1) points
  | or => exact Bounds.isPoint_foldl Interval.isPoint_or (Interval.isPoint_point 0) points
  | add => exact Bounds.isPoint_foldl Interval.isPoint_add (Interval.isPoint_point 0) points
  | mul => exact Bounds.isPoint_foldl Interval.isPoint_mul (Interval.isPoint_point 1) points

private theorem Realizes.isPoint_of_decisive {operand : Formula} {holds : Bool}
    (decisive : op = .and ∧ holds = false ∨ op = .or ∧ holds = true)
    (realized : circuit.Realizes (.nary op operands) gate) (member : operand ∈ operands)
    (settled : ∀ below, circuit.Realizes operand below →
      (circuit.enclose box).interval below = .point (Value.bool holds).number)
    (truth : ((circuit.enclose box).interval gate).IsTruth) :
    ((circuit.enclose box).interval gate).isPoint = true := by
  obtain ⟨gates, operandsRealized, found⟩ := realized
  obtain ⟨below, inGates, operandRealized⟩ := operandsRealized.exists_gate member
  rcases decisive with ⟨rfl, rfl⟩ | ⟨rfl, rfl⟩
  · exact isPoint_of_notAll wellFormed found inGates (settled below operandRealized) truth
  · exact isPoint_of_any wellFormed found inGates (settled below operandRealized) truth

variable (isBox : circuit.IsBox box) (inside : circuit.Inside box valuation.number)

include isBox inside

theorem Realizes.eq_point {formula : Formula} {gate : Nat} {sort : ValueSort}
    {value : Value} (realized : circuit.Realizes formula gate) (typed : formula.HasSort sort)
    (fixed : circuit.Fixes box valuation formula)
    (evaluated : formula.EvaluatesTo valuation value)
    (isPoint : ((circuit.enclose box).interval gate).isPoint = true) :
    (circuit.enclose box).interval gate = .point value.number :=
  Interval.mem_of_isPoint isPoint
    ((realized.yields typed fixed.suits evaluated).mem_enclose wellFormed isBox inside)

/-- The bounds of a formula with a value over fixed inputs are a point. -/
theorem Realizes.isPoint {formula : Formula} {gate : Nat} {sort : ValueSort} {value : Value}
    (realized : circuit.Realizes formula gate) (typed : formula.HasSort sort)
    (fixed : circuit.Fixes box valuation formula)
    (evaluated : formula.EvaluatesTo valuation value) :
    ((circuit.enclose box).interval gate).isPoint = true := by
  have truth {formula : Formula} {gate : Nat} (realized : circuit.Realizes formula gate)
      (typed : formula.HasSort .bool) : ((circuit.enclose box).interval gate).IsTruth :=
    (realized.truth typed).interval wellFormed isBox
  induction evaluated generalizing gate sort with
  | bool | int =>
      rw [interval_enclose wellFormed box realized]
      exact Interval.isPoint_point _
  | symbol bound =>
      obtain ⟨index, input, found, held, rfl⟩ := realized
      rw [interval_enclose wellFormed box found]
      exact fixed.points index input held .here
  | not evaluated operandCase =>
      obtain ⟨below, operandRealized, found⟩ := realized
      cases typed with
      | not operandTyped =>
          rw [interval_enclose wellFormed box found]
          exact Interval.isPoint_not
            (operandCase operandRealized operandTyped (fixed.child (by simp [Formula.children])))
  | neg evaluated negated operandCase =>
      obtain ⟨below, operandRealized, found⟩ := realized
      cases typed with
      | neg operandTyped =>
          rw [interval_enclose wellFormed box found]
          exact Interval.isPoint_neg
            (operandCase operandRealized operandTyped (fixed.child (by simp [Formula.children])))
  | vacuous evaluated leftCase =>
      have boolean : ValueSort.bool = sort := by
        cases typed with
        | binary sorts => exact sorts.2.2.symm
      subst boolean
      have whole := truth realized typed
      obtain ⟨first, second, leftRealized, -, negated, below, found⟩ := realized
      cases typed with
      | binary sorts leftTyped rightTyped =>
          have leftFixed := fixed.child List.mem_cons_self
          have leftPoint := leftRealized.eq_point wellFormed isBox inside leftTyped leftFixed
            evaluated (leftCase leftRealized leftTyped leftFixed)
          refine isPoint_of_any wellFormed found List.mem_cons_self ?_ whole
          rw [interval_enclose wellFormed box below, Gate.enclose, leftPoint]
          rfl
  | implied evaluated rightEvaluated leftCase rightCase =>
      obtain ⟨first, second, leftRealized, rightRealized, negated, below, found⟩ := realized
      cases typed with
      | binary sorts leftTyped rightTyped =>
          have leftPoint := leftCase leftRealized leftTyped
            (fixed.child (by simp [Formula.children]))
          have rightPoint := rightCase rightRealized rightTyped
            (fixed.child (by simp [Formula.children]))
          have negatedPoint : ((circuit.enclose box).interval negated).isPoint = true := by
            rw [interval_enclose wellFormed box below]
            exact Interval.isPoint_not leftPoint
          rw [interval_enclose wellFormed box found]
          refine Bounds.isPoint_foldl Interval.isPoint_or (Interval.isPoint_point 0) ?_
          simpa using ⟨negatedPoint, rightPoint⟩
  | binary strict evaluated rightEvaluated applied leftCase rightCase =>
      obtain ⟨first, second, leftRealized, rightRealized, joins⟩ := realized
      cases typed with
      | binary sorts leftTyped rightTyped =>
          have leftFixed := fixed.child List.mem_cons_self
          have rightFixed := fixed.child (List.mem_cons_of_mem _ List.mem_cons_self)
          have leftPoint := leftRealized.eq_point wellFormed isBox inside leftTyped leftFixed
            evaluated (leftCase leftRealized leftTyped leftFixed)
          have rightPoint := rightRealized.eq_point wellFormed isBox inside rightTyped rightFixed
            rightEvaluated (rightCase rightRealized rightTyped rightFixed)
          exact joins.isPoint wellFormed strict applied leftPoint rightPoint
  | all _ operandCases | none _ operandCases =>
      obtain ⟨-, each⟩ := (Formula.hasSort_nary_iff _ _ _).mp typed
      exact realized.isPoint_nary wellFormed fun operand member _ operandRealized =>
        operandCases operand member operandRealized (each operand member) (fixed.child member)
  | sum _ _ operandCases | product _ _ operandCases =>
      obtain ⟨-, each⟩ := (Formula.hasSort_nary_iff _ _ _).mp typed
      exact realized.isPoint_nary wellFormed fun operand member _ operandRealized =>
        operandCases operand member operandRealized (each operand member) (fixed.child member)
  | @notAll _ _ _ operand split _ evaluated _ operandCase
  | @any _ _ _ operand split _ evaluated _ operandCase =>
      obtain ⟨rfl, each⟩ := (Formula.hasSort_nary_iff _ _ _).mp typed
      have member : operand ∈ _ := split ▸ List.mem_append_right _ List.mem_cons_self
      have operandFixed := fixed.child member
      have settled := fun below (operandRealized : circuit.Realizes operand below) =>
        operandRealized.eq_point wellFormed isBox inside (each operand member) operandFixed
          evaluated (operandCase operandRealized (each operand member) operandFixed)
      exact realized.isPoint_of_decisive wellFormed (by simp) member settled
        (truth realized typed)
  | consequent evaluated _ conditionCase consequentCase =>
      obtain ⟨first, second, third, conditionRealized, consequentRealized, -, found⟩ := realized
      cases typed with
      | ite conditionTyped consequentTyped alternativeTyped =>
          have conditionFixed := fixed.child List.mem_cons_self
          have condition := conditionRealized.eq_point wellFormed isBox inside conditionTyped
            conditionFixed evaluated (conditionCase conditionRealized conditionTyped conditionFixed)
          rw [interval_enclose wellFormed box found, Gate.enclose, condition]
          exact consequentCase consequentRealized consequentTyped
            (fixed.child (by simp [Formula.children]))
  | alternative evaluated _ conditionCase alternativeCase =>
      obtain ⟨first, second, third, conditionRealized, -, alternativeRealized, found⟩ := realized
      cases typed with
      | ite conditionTyped consequentTyped alternativeTyped =>
          have conditionFixed := fixed.child List.mem_cons_self
          have condition := conditionRealized.eq_point wellFormed isBox inside conditionTyped
            conditionFixed evaluated (conditionCase conditionRealized conditionTyped conditionFixed)
          rw [interval_enclose wellFormed box found, Gate.enclose, condition]
          exact alternativeCase alternativeRealized alternativeTyped
            (fixed.child (by simp [Formula.children]))

theorem Realizes.interval_eq_point {formula : Formula} {gate : Nat} {sort : ValueSort}
    {value : Value} (realized : circuit.Realizes formula gate) (typed : formula.HasSort sort)
    (fixed : circuit.Fixes box valuation formula)
    (evaluated : formula.EvaluatesTo valuation value) :
    (circuit.enclose box).interval gate = .point value.number :=
  realized.eq_point wellFormed isBox inside typed fixed evaluated
    (realized.isPoint wellFormed isBox inside typed fixed evaluated)

end Exactness

end Circuit

end SymbolicSafety
