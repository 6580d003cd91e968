import SymbolicSafety.Proofs.Assignment

namespace SymbolicSafety

/-! Truth values that no operation beside them can take away. Evaluation fails at
the first operand that leaves its range, although a later operand may decide the
conjunction or disjunction. Circuits look at all operands, so what they find
true or false does not depend on the order. -/

namespace Formula

/-- The formula has the truth value, or operands that absorb all others force
it. -/
inductive Forced (assignment : Assignment) : Formula → Bool → Prop where
  | truth {formula : Formula} {holds : Bool} :
      formula.HasTruth assignment holds → Forced assignment formula holds
  | not {operand : Formula} {holds : Bool} :
      Forced assignment operand holds → Forced assignment (.unary .not operand) (!holds)
  | absorbed {op : NaryOp} {neutral : Bool} {operands : List Formula} {operand : Formula} :
      Neutral op neutral → operand ∈ operands → Forced assignment operand (!neutral) →
      Forced assignment (.nary op operands) (!neutral)

variable {assignment other : Assignment} {formula : Formula} {holds : Bool}

theorem Forced.congr (forced : formula.Forced assignment holds)
    (agree : ∀ symbol, formula.Mentions symbol → assignment symbol = other symbol) :
    formula.Forced other holds := by
  induction forced with
  | truth held => exact .truth ((hasTruth_congr agree).mp held)
  | not _ operandCase =>
      exact .not (operandCase fun symbol mentions => agree symbol (by simpa using mentions))
  | absorbed kind member _ operandCase =>
      exact .absorbed kind member
        (operandCase fun symbol mentions => agree symbol (.of_child member mentions))

/-! ## Builders -/

theorem Forced.mkNot (forced : formula.Forced assignment holds) :
    (Formula.mkNot formula).Forced assignment (!holds) := by
  cases forced with
  | truth held => exact .truth (hasTruth_mkNot_iff.mpr (by simpa using held))
  | not operandForced => simpa [Formula.mkNot] using operandForced
  | absorbed kind member operandForced => exact .not (.absorbed kind member operandForced)

section Junctions

variable {op : NaryOp} {neutral : Bool} {operands : List Formula} (kind : Neutral op neutral)
include kind

private theorem Forced.exists_operand
    (forced : (Formula.nary op operands).Forced assignment (!neutral)) :
    ∃ operand ∈ operands, operand.Forced assignment (!neutral) := by
  generalize same : (!neutral) = holds at forced
  cases forced with
  | truth held =>
      subst same
      have evaluated := (evaluate_eq_ok_iff ..).mp held
      obtain ⟨absurd', -⟩ | ⟨-, before, operand, after, split, -, last⟩ :=
        (evaluatesTo_nary_iff kind operands _).mp evaluated
      · cases neutral <;> cases absurd'
      · have member : operand ∈ operands := split ▸ List.mem_append_right _ List.mem_cons_self
        refine ⟨operand, member, .truth ((hasTruth_iff fun symbol mentions => ?_).mpr last)⟩
        exact assignment.get?_valuation (List.mem_singleton_self _) (.of_child member mentions)
  | absorbed _ member operandForced => exact ⟨_, member, operandForced⟩

private theorem Forced.exists_spread (forced : formula.Forced assignment (!neutral)) :
    ∃ part ∈ spread op neutral formula, part.Forced assignment (!neutral) := by
  unfold spread
  split
  next value =>
    generalize same : (!neutral) = holds at forced
    cases forced with
    | truth held =>
        obtain rfl : value = holds := by simpa [HasTruth, evaluate] using held
        have other : value ≠ neutral := by cases neutral <;> simp_all
        rw [if_neg other]
        exact ⟨_, List.mem_singleton_self _, .truth rfl⟩
  next op' inner =>
    split
    next equal =>
      subst equal
      exact forced.exists_operand kind
    next => exact ⟨_, List.mem_singleton_self _, forced⟩
  next => exact ⟨_, List.mem_singleton_self _, forced⟩

theorem Forced.junction (member : formula ∈ operands)
    (forced : formula.Forced assignment (!neutral)) :
    (Formula.junction op neutral operands).Forced assignment (!neutral) := by
  unfold Formula.junction
  split
  next => exact .truth rfl
  next =>
    obtain ⟨part, inSpread, partForced⟩ := forced.exists_spread kind
    have inParts : part ∈ operands.flatMap (spread op neutral) :=
      List.mem_flatMap.mpr ⟨formula, member, inSpread⟩
    split
    next none => simp [none] at inParts
    next single isSingle =>
      rw [isSingle, List.mem_singleton] at inParts
      exact inParts ▸ partForced
    next => exact .absorbed kind inParts partForced

end Junctions

theorem Forced.mkOr {operands : List Formula} (member : formula ∈ operands)
    (forced : formula.Forced assignment true) : (Formula.mkOr operands).Forced assignment true :=
  Forced.junction (.inr ⟨rfl, rfl⟩) member forced

theorem Forced.mkAnd {operands : List Formula} (member : formula ∈ operands)
    (forced : formula.Forced assignment false) : (Formula.mkAnd operands).Forced assignment false :=
  Forced.junction (.inl ⟨rfl, rfl⟩) member forced

theorem Forced.exists_conjunct (forced : formula.Forced assignment false) :
    ∃ conjunct ∈ formula.conjuncts, conjunct.Forced assignment false := by
  unfold conjuncts
  split
  next => exact Forced.exists_operand (.inl ⟨rfl, rfl⟩) forced
  next => exact ⟨_, List.mem_singleton_self _, forced⟩

/-! ## Circuits -/

theorem Forced.yields (forced : formula.Forced assignment holds) {circuit : Circuit} {gate : Nat}
    (realized : circuit.Realizes formula gate) (typed : formula.HasSort .bool)
    {valuation : Valuation} (suited : valuation.Suits formula)
    (agree : ∀ symbol, formula.Mentions symbol → valuation.get? symbol = some (assignment symbol)) :
    circuit.Yields valuation.number gate holds.toInt := by
  induction forced generalizing gate with
  | truth held => exact realized.yields typed suited ((hasTruth_iff agree).mp held)
  | not _ operandCase =>
      obtain ⟨below, operandRealized, found⟩ := realized
      cases typed with
      | not operandTyped =>
          exact .not found (operandCase operandRealized operandTyped
            (suited.child (by simp [children]))
            fun symbol mentions => agree symbol (by simpa using mentions))
  | absorbed kind member _ operandCase =>
      obtain ⟨below, operandsRealized, found⟩ := realized
      obtain ⟨same, each⟩ := (hasSort_nary_iff _ _ _).mp typed
      obtain ⟨gate', inBelow, operandRealized⟩ := operandsRealized.exists_gate member
      rcases kind with ⟨rfl, rfl⟩ | ⟨rfl, rfl⟩
      · exact .notAll found inBelow (operandCase operandRealized (each _ member)
          (suited.child member) fun symbol mentions => agree symbol (.of_child member mentions))
      · exact .any found inBelow (operandCase operandRealized (each _ member)
          (suited.child member) fun symbol mentions => agree symbol (.of_child member mentions))

end Formula

/-- Under a model no assertion is forced to be false, also where the arithmetic
overflows. -/
theorem Solver.exists_unforced_of_check {solver checked : Solver}
    (assertable : ∀ formula ∈ solver.formulas, Assertable formula)
    (proper : ∀ formula ∈ solver.formulas, formula.Proper)
    (answered : solver.check = .ok (.sat, checked)) :
    ∃ model, checked.model = .ok model ∧ ∀ formula ∈ solver.formulas,
      model.Admits formula ∧ ¬ formula.Forced model.completed false := by
  obtain ⟨problem, box, compiled, found, isBox, isTrue⟩ :=
    exists_box_of_check assertable proper answered
  have boolean : ∀ formula ∈ solver.formulas, formula.IsBoolean :=
    fun formula member => (assertable formula member).isBoolean
  have represents := Problem.represents_ofFormulas boolean compiled
  obtain ⟨inside, admits⟩ := Problem.admits_valuation boolean compiled isBox
  refine ⟨_, found, fun formula member => ⟨admits formula member, fun forced => ?_⟩⟩
  obtain ⟨conjunct, inConjuncts, isFalse⟩ := forced.exists_conjunct
  obtain ⟨root, inRoots, rootOf⟩ :=
    represents.rooted conjunct (List.mem_flatMap.mpr ⟨formula, member, inConjuncts⟩)
  have mentioned {symbol : Symbol} (mentions : conjunct.Mentions symbol) :
      formula.Mentions symbol :=
    (formula.mentions_iff_conjuncts symbol).mpr ⟨conjunct, inConjuncts, mentions⟩
  have yields := isFalse.yields rootOf.realized
    (Problem.hasSort_conjuncts (boolean formula member) inConjuncts)
    (fun symbol mentions => (admits formula member).suits symbol (mentioned mentions))
    fun symbol mentions => (admits formula member).get?_eq_completed (mentioned mentions)
  have one := Interval.eq_one_of_isTrue (isTrue root inRoots)
    (yields.mem_enclose represents.wellFormed isBox inside)
  exact absurd one (by decide)

end SymbolicSafety
