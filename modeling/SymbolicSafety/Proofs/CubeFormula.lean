import SymbolicSafety.Proofs.Compilation
import SymbolicSafety.Proofs.CubeUnion
import SymbolicSafety.Proofs.Junctions

namespace SymbolicSafety

/-! Cubes written as a formula. Where the inputs have values of their domains,
the formula is true at the points that the cubes cover and false elsewhere. -/

theorem Domain.least_le_of_interval {domain : Domain} {interval : Interval}
    (finite : domain.interval? = some interval) : Wide.least ≤ interval.lo := by
  cases domain with
  | int => simp [Domain.interval?] at finite
  | bool =>
      obtain rfl := Option.some.inj finite
      decide
  | range least greatest =>
      obtain rfl := Option.some.inj finite
      have lower := least.le_toInt
      simp only [Wide.least]
      omega

namespace Cube

variable {valuation : Valuation} {input : Input} {interval : Interval} {value : Value}

private theorem mkComparison_evaluatesTo {op : BinaryOp} {symbol : Symbol} {word other : Int64}
    {holds : Bool} (bound : valuation.get? symbol = some (.int word)) (operator : op ≠ .implies)
    (applied : op.result? (.int word) (.int other) = some (.bool holds)) :
    (Formula.mkComparison op (.symbol symbol) (.int other)).EvaluatesTo valuation (.bool holds) :=
  .binary operator (.symbol bound) (.int other) applied

private theorem constraint_evaluatesTo_of_bool (boolean : input.symbol.domain = .bool)
    (domain : input.domain = .undecided) (lower : 0 ≤ interval.lo)
    (ordered : interval.lo ≤ interval.hi) (upper : interval.hi ≤ 1) {holds : Bool}
    (bound : valuation.get? input.symbol = some (.bool holds)) {formula : Formula}
    (constrained : constraint? input interval = some formula) :
    formula.EvaluatesTo valuation (.bool (interval.contains (Value.bool holds).number)) := by
  obtain ⟨lo, hi⟩ := interval
  simp only at lower ordered upper
  have symbol : (Formula.symbol input.symbol).EvaluatesTo valuation (.bool holds) := .symbol bound
  have points : (lo = 0 ∧ hi = 0) ∨ (lo = 1 ∧ hi = 1) ∨ (lo = 0 ∧ hi = 1) := by omega
  rcases points with ⟨rfl, rfl⟩ | ⟨rfl, rfl⟩ | ⟨rfl, rfl⟩
  · have isNot : formula = .mkNot (.symbol input.symbol) := by
      simpa [constraint?, domain, boolean, Interval.undecided, Interval.isTrue, Interval.true,
        Interval.point, eq_comm] using constrained
    rw [isNot, Formula.mkNot_evaluatesTo_iff]
    cases holds <;> exact symbol
  · have isSymbol : formula = .symbol input.symbol := by
      simpa [constraint?, domain, boolean, Interval.undecided, Interval.isTrue, Interval.true,
        Interval.point, eq_comm] using constrained
    rw [isSymbol]
    cases holds <;> exact symbol
  · simp [constraint?, domain, Interval.undecided] at constrained

private theorem constraint_evaluatesTo_of_range {least greatest word : Int64}
    (range : input.symbol.domain = .range least greatest)
    (domain : input.domain = ⟨least.toInt, greatest.toInt⟩) (lower : least.toInt ≤ interval.lo)
    (ordered : interval.lo ≤ interval.hi) (upper : interval.hi ≤ greatest.toInt)
    (bound : valuation.get? input.symbol = some (.int word)) (above : least ≤ word)
    (below : word ≤ greatest) {formula : Formula}
    (constrained : constraint? input interval = some formula) :
    formula.EvaluatesTo valuation (.bool (interval.contains (Value.int word).number)) := by
  have smallest := least.le_toInt
  have largest := greatest.toInt_lt
  have exactLo : (Int64.ofInt interval.lo).toInt = interval.lo :=
    Int64.toInt_ofInt_of_le (by omega) (by omega)
  have exactHi : (Int64.ofInt interval.hi).toInt = interval.hi :=
    Int64.toInt_ofInt_of_le (by omega) (by omega)
  rw [Int64.le_iff_toInt_le] at above below
  -- Each literal comparison says what it says about the numbers.
  have equal : (Formula.mkEq (.symbol input.symbol) (.int (Int64.ofInt interval.lo))).EvaluatesTo
      valuation (.bool (word.toInt = interval.lo)) :=
    mkComparison_evaluatesTo bound (by decide)
      (by simp [BinaryOp.result?, ← Int64.toInt_inj, exactLo])
  have atLeast : (Formula.mkGeq (.symbol input.symbol) (.int (Int64.ofInt interval.lo))).EvaluatesTo
      valuation (.bool (interval.lo ≤ word.toInt)) :=
    mkComparison_evaluatesTo bound (by decide)
      (by simp [BinaryOp.result?, Int64.le_iff_toInt_le, exactLo])
  have atMost : (Formula.mkLeq (.symbol input.symbol) (.int (Int64.ofInt interval.hi))).EvaluatesTo
      valuation (.bool (word.toInt ≤ interval.hi)) :=
    mkComparison_evaluatesTo bound (by decide)
      (by simp [BinaryOp.result?, Int64.le_iff_toInt_le, exactHi])
  have notBool : input.symbol.domain ≠ .bool := by simp [range]
  simp only [constraint?, notBool, if_false] at constrained
  split at constrained
  next => simp at constrained
  next =>
    split at constrained
    next isPoint =>
      obtain rfl := Option.some.inj constrained
      have same : interval.contains word.toInt = decide (word.toInt = interval.lo) := by
        simp only [Interval.isPoint, decide_eq_true_eq] at isPoint
        rw [Bool.eq_iff_iff, Interval.contains_eq_true_iff, Interval.mem_iff, decide_eq_true_eq]
        omega
      exact same ▸ equal
    next =>
      split at constrained
      next fromLeast =>
        obtain rfl := Option.some.inj constrained
        have same : interval.contains word.toInt = decide (word.toInt ≤ interval.hi) := by
          rw [Bool.eq_iff_iff, Interval.contains_eq_true_iff, Interval.mem_iff, decide_eq_true_eq]
          simp only [domain] at fromLeast
          omega
        exact same ▸ atMost
      next =>
        split at constrained
        next toGreatest =>
          obtain rfl := Option.some.inj constrained
          have same : interval.contains word.toInt = decide (interval.lo ≤ word.toInt) := by
            rw [Bool.eq_iff_iff, Interval.contains_eq_true_iff, Interval.mem_iff,
              decide_eq_true_eq]
            simp only [domain] at toGreatest
            omega
          exact same ▸ atLeast
        next =>
          obtain rfl := Option.some.inj constrained
          exact Formula.mkAnd_pair atLeast atMost

/-- An interval that is not the whole domain becomes a formula that says
whether the value lies in it. -/
private theorem constraint_evaluatesTo
    (finite : input.symbol.domain.interval? = some input.domain)
    (lower : input.domain.lo ≤ interval.lo) (ordered : interval.lo ≤ interval.hi)
    (upper : interval.hi ≤ input.domain.hi) (bound : valuation.get? input.symbol = some value)
    (contains : input.symbol.domain.contains value = true) {formula : Formula}
    (constrained : constraint? input interval = some formula) :
    formula.EvaluatesTo valuation (.bool (interval.contains value.number)) := by
  cases domain : input.symbol.domain with
  | int => simp [domain, Domain.interval?] at finite
  | bool =>
      rw [domain] at finite contains
      have whole : input.domain = .undecided := (Option.some.inj finite).symm
      rw [whole] at lower upper
      cases value with
      | int => simp [Domain.contains] at contains
      | bool holds =>
          exact constraint_evaluatesTo_of_bool domain whole lower ordered upper bound constrained
  | range least greatest =>
      rw [domain] at finite contains
      have whole : input.domain = ⟨least.toInt, greatest.toInt⟩ := (Option.some.inj finite).symm
      rw [whole] at lower upper
      cases value with
      | bool => simp [Domain.contains] at contains
      | int word =>
          simp only [Domain.contains, Bool.and_eq_true, decide_eq_true_eq] at contains
          exact constraint_evaluatesTo_of_range domain whole lower ordered upper bound contains.1
            contains.2 constrained

private theorem mem_of_constraint_eq_none
    (finite : input.symbol.domain.interval? = some input.domain)
    (contains : input.symbol.domain.contains value = true)
    (free : constraint? input interval = none) : value.number ∈ interval := by
  have whole : interval = input.domain := by
    simp only [constraint?] at free
    split at free
    next same => exact same
    next =>
      repeat' split at free
      all_goals simp at free
  exact whole ▸ Domain.number_mem_interval finite contains

/-! ## All cubes -/

section Union

variable {inputs : List Input} {cube : Cube} {cubes : List Cube}

/-- Every input is bound to a value of its finite domain. -/
def Grounded (valuation : Valuation) (inputs : List Input) : Prop :=
  ∀ input ∈ inputs, input.symbol.domain.interval? = some input.domain ∧
    ∃ value, valuation.get? input.symbol = some value ∧ input.symbol.domain.contains value = true

def pointOf (valuation : Valuation) (inputs : List Input) : List Int :=
  inputs.map fun input => valuation.number input.symbol

private theorem mem_constraints {formula : Formula} :
    formula ∈ ((inputs.zip cube).filterMap fun pair => constraint? pair.1 pair.2) ↔
      ∃ (dimension : Nat) (input : Input) (interval : Interval), inputs[dimension]? = some input ∧
        cube[dimension]? = some interval ∧ constraint? input interval = some formula := by
  rw [List.mem_filterMap]
  simp only [List.mem_iff_getElem?, Prod.exists, List.getElem?_zip_eq_some]
  constructor
  · rintro ⟨input, interval, ⟨dimension, held, found⟩, constrained⟩
    exact ⟨dimension, input, interval, held, found, constrained⟩
  · rintro ⟨dimension, input, interval, held, found, constrained⟩
    exact ⟨input, interval, ⟨dimension, held, found⟩, constrained⟩

private theorem constraints_spec (fits : Fits inputs cube)
    (grounded : Grounded valuation inputs) :
    let formula := Formula.mkAnd ((inputs.zip cube).filterMap fun pair =>
      constraint? pair.1 pair.2)
    (∃ holds, formula.EvaluatesTo valuation (.bool holds)) ∧
      (formula.EvaluatesTo valuation (.bool true) ↔ cube.Contains (pointOf valuation inputs)) := by
  have each {dimension : Nat} {input : Input} {interval : Interval} {formula : Formula}
      (held : inputs[dimension]? = some input) (found : cube[dimension]? = some interval)
      (constrained : constraint? input interval = some formula) :
      formula.EvaluatesTo valuation
        (.bool (interval.contains (valuation.number input.symbol))) := by
    obtain ⟨finite, value, bound, contains⟩ := grounded input (List.mem_of_getElem? held)
    obtain ⟨-, lower, ordered, upper⟩ := fits.within dimension input interval held found
    rw [Valuation.number_of_get? bound]
    exact constraint_evaluatesTo finite lower ordered upper bound contains constrained
  constructor
  · refine Formula.mkAnd_decided fun formula member => ?_
    obtain ⟨dimension, input, interval, held, found, constrained⟩ := mem_constraints.mp member
    exact ⟨_, each held found constrained⟩
  · rw [Formula.mkAnd_evaluatesTo_true_iff]
    constructor
    · intro holds dimension interval number found atPoint
      simp only [pointOf, List.getElem?_map, Option.map_eq_some_iff] at atPoint
      obtain ⟨input, held, rfl⟩ := atPoint
      cases constrained : constraint? input interval with
      | none =>
          obtain ⟨finite, value, bound, contains⟩ := grounded input (List.mem_of_getElem? held)
          rw [Valuation.number_of_get? bound]
          exact mem_of_constraint_eq_none finite contains constrained
      | some formula =>
          have isTrue := holds formula
            (mem_constraints.mpr ⟨dimension, input, interval, held, found, constrained⟩)
          rw [← Interval.contains_eq_true_iff]
          exact Value.bool.inj ((each held found constrained).unique isTrue)
    · intro contains formula member
      obtain ⟨dimension, input, interval, held, found, constrained⟩ := mem_constraints.mp member
      have inside : valuation.number input.symbol ∈ interval :=
        contains dimension interval _ found (by simp [pointOf, held])
      rw [← Interval.contains_eq_true_iff] at inside
      exact inside ▸ each held found constrained

theorem toFormula_decided (fits : ∀ cube ∈ cubes, Fits inputs cube)
    (grounded : Grounded valuation inputs) :
    ∃ holds, (toFormula inputs cubes).EvaluatesTo valuation (.bool holds) := by
  refine Formula.mkOr_decided (List.forall_mem_map.mpr fun cube member => ?_)
  exact (constraints_spec (fits cube member) grounded).1

/-- The formula of some cubes is true at the points that they cover. -/
theorem toFormula_evaluatesTo_true_iff (fits : ∀ cube ∈ cubes, Fits inputs cube)
    (grounded : Grounded valuation inputs) :
    (toFormula inputs cubes).EvaluatesTo valuation (.bool true) ↔
      Covered cubes (pointOf valuation inputs) := by
  constructor
  · intro evaluated
    obtain ⟨operand, member, holds⟩ := Formula.exists_of_mkOr evaluated
    obtain ⟨cube, inCubes, rfl⟩ := List.mem_map.mp member
    exact ⟨cube, inCubes, (constraints_spec (fits cube inCubes) grounded).2.mp holds⟩
  · rintro ⟨cube, inCubes, contains⟩
    refine Formula.mkOr_evaluatesTo_true (List.forall_mem_map.mpr fun cube member => ?_)
      (List.mem_map.mpr ⟨cube, inCubes, rfl⟩)
      ((constraints_spec (fits cube inCubes) grounded).2.mpr contains)
    exact (constraints_spec (fits cube member) grounded).1

private theorem constraint_shape {formula : Formula}
    (constrained : constraint? input interval = some formula) :
    formula = .symbol input.symbol ∨ formula = .mkNot (.symbol input.symbol) ∨
      (∃ op word, formula = .mkComparison op (.symbol input.symbol) (.int word)) ∨
      ∃ op word op' word', formula = .mkAnd [.mkComparison op (.symbol input.symbol) (.int word),
        .mkComparison op' (.symbol input.symbol) (.int word')] := by
  simp only [constraint?] at constrained
  repeat' split at constrained
  all_goals simp only [Option.some.injEq, reduceCtorEq] at constrained
  all_goals subst constrained
  · exact .inl rfl
  · exact .inr (.inl rfl)
  · exact .inr (.inr (.inl ⟨_, _, rfl⟩))
  · exact .inr (.inr (.inl ⟨_, _, rfl⟩))
  · exact .inr (.inr (.inl ⟨_, _, rfl⟩))
  · exact .inr (.inr (.inr ⟨_, _, _, _, rfl⟩))

private theorem mentions_of_constraint {formula : Formula} {symbol : Symbol}
    (constrained : constraint? input interval = some formula)
    (mentions : formula.Mentions symbol) : symbol = input.symbol := by
  have compared (op : BinaryOp) (word : Int64)
      (mentions : (Formula.mkComparison op (.symbol input.symbol) (.int word)).Mentions symbol) :
      symbol = input.symbol := by
    simpa [Formula.mkComparison] using mentions
  rcases constraint_shape constrained with
    rfl | rfl | ⟨op, word, rfl⟩ | ⟨op, word, op', word', rfl⟩
  · simpa using mentions
  · rw [Formula.mkNot_mentions_iff] at mentions
    simpa using mentions
  · exact compared _ _ mentions
  · obtain ⟨operand, member, mentions⟩ := Formula.mentions_of_junction mentions
    simp only [List.mem_cons, List.not_mem_nil, or_false] at member
    rcases member with rfl | rfl
    · exact compared _ _ mentions
    · exact compared _ _ mentions

theorem mentions_of_toFormula {symbol : Symbol}
    (mentions : (toFormula inputs cubes).Mentions symbol) :
    ∃ input ∈ inputs, symbol = input.symbol := by
  obtain ⟨operand, member, mentions⟩ := Formula.mentions_of_junction mentions
  obtain ⟨cube, -, rfl⟩ := List.mem_map.mp member
  obtain ⟨formula, inConstraints, mentions⟩ := Formula.mentions_of_junction mentions
  obtain ⟨dimension, input, interval, held, -, constrained⟩ := mem_constraints.mp inConstraints
  exact ⟨input, List.mem_of_getElem? held, mentions_of_constraint constrained mentions⟩

private theorem primeFree_of_constraint {formula : Formula}
    (constrained : constraint? input interval = some formula) : formula.PrimeFree := by
  have symbol := Formula.primeFree_symbol input.symbol
  have compared (op : BinaryOp) (word : Int64) :
      (Formula.mkComparison op (.symbol input.symbol) (.int word)).PrimeFree := by
    simp [Formula.mkComparison]
  rcases constraint_shape constrained with
    rfl | rfl | ⟨op, word, rfl⟩ | ⟨op, word, op', word', rfl⟩
  · exact symbol
  · exact symbol.mkNot
  · exact compared _ _
  · exact .junction (by simpa using ⟨compared _ _, compared _ _⟩)

theorem primeFree_toFormula (inputs : List Input) (cubes : List Cube) :
    (toFormula inputs cubes).PrimeFree := by
  refine .junction (List.forall_mem_map.mpr fun cube _ => .junction fun formula member => ?_)
  obtain ⟨dimension, input, interval, -, -, constrained⟩ := mem_constraints.mp member
  exact primeFree_of_constraint constrained

private theorem hasSort_of_constraint {formula : Formula}
    (constrained : constraint? input interval = some formula) : formula.HasSort .bool := by
  have symbol : (Formula.symbol input.symbol).HasSort input.symbol.domain.sort := .symbol _
  simp only [constraint?] at constrained
  split at constrained
  · cases constrained
  · split at constrained
    next isBool =>
      obtain rfl := Option.some.inj constrained
      rw [isBool] at symbol
      split
      · exact symbol
      · exact symbol.mkNot
    next notBool =>
      have isInt : input.symbol.domain.sort = .int := by
        cases domain : input.symbol.domain with
        | bool => exact absurd domain notBool
        | int | range => rfl
      rw [isInt] at symbol
      have equal (word : Int64) :
          (Formula.mkEq (.symbol input.symbol) (.int word)).HasSort .bool :=
        .binary ⟨rfl, rfl⟩ symbol (.int word)
      have atMost (word : Int64) :
          (Formula.mkLeq (.symbol input.symbol) (.int word)).HasSort .bool :=
        .binary ⟨rfl, rfl, rfl⟩ symbol (.int word)
      have atLeast (word : Int64) :
          (Formula.mkGeq (.symbol input.symbol) (.int word)).HasSort .bool :=
        .binary ⟨rfl, rfl, rfl⟩ symbol (.int word)
      repeat' split at constrained
      all_goals obtain rfl := Option.some.inj constrained
      · exact equal _
      · exact atMost _
      · exact atLeast _
      · exact .junction rfl (by simpa using ⟨atLeast _, atMost _⟩)

theorem hasSort_toFormula (inputs : List Input) (cubes : List Cube) :
    (toFormula inputs cubes).HasSort .bool := by
  refine .junction rfl (List.forall_mem_map.mpr fun cube _ => ?_)
  refine .junction rfl fun formula member => ?_
  obtain ⟨dimension, input, interval, -, -, constrained⟩ := mem_constraints.mp member
  exact hasSort_of_constraint constrained

end Union

end Cube

end SymbolicSafety
