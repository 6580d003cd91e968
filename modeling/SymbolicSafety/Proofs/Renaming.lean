import SymbolicSafety.Proofs.Assignment

namespace SymbolicSafety

/-! Formulas under other names for their symbols. A renamed formula has the
value that the formula has when each symbol is read under its new name. -/

namespace Formula

mutual

def rename (change : Symbol → Symbol) : Formula → Formula
  | .bool value => .bool value
  | .int value => .int value
  | .symbol name => .symbol (change name)
  | .unary op operand => .unary op (operand.rename change)
  | .binary op left right => .binary op (left.rename change) (right.rename change)
  | .nary op operands => .nary op (renameAll change operands)
  | .ite condition consequent alternative =>
      .ite (condition.rename change) (consequent.rename change) (alternative.rename change)

def renameAll (change : Symbol → Symbol) : List Formula → List Formula
  | [] => []
  | operand :: rest => operand.rename change :: renameAll change rest

end

variable {change : Symbol → Symbol}

@[simp] theorem renameAll_eq_map (operands : List Formula) :
    renameAll change operands = operands.map (rename change) := by
  induction operands with
  | nil => rfl
  | cons head rest induction => rw [renameAll, induction, List.map_cons]

theorem mentions_rename_iff (formula : Formula) (symbol : Symbol) :
    (formula.rename change).Mentions symbol ↔
      ∃ name, formula.Mentions name ∧ symbol = change name := by
  induction formula with
  | bool | int => simp [rename]
  | symbol name => simp [rename]
  | unary op operand operandCase => simp [rename, operandCase]
  | binary op left right leftCase rightCase =>
      simp [rename, leftCase, rightCase, or_and_right, exists_or]
  | nary op operands operandCases =>
      simp only [rename, renameAll_eq_map, mentions_nary, List.mem_map]
      constructor
      · rintro ⟨_, ⟨operand, member, rfl⟩, mentions⟩
        obtain ⟨name, mentions, equal⟩ := (operandCases operand member).mp mentions
        exact ⟨name, ⟨operand, member, mentions⟩, equal⟩
      · rintro ⟨name, ⟨operand, member, mentions⟩, equal⟩
        exact ⟨_, ⟨operand, member, rfl⟩, (operandCases operand member).mpr ⟨name, mentions, equal⟩⟩
  | ite condition consequent alternative conditionCase consequentCase alternativeCase =>
      simp [rename, conditionCase, consequentCase, alternativeCase, or_and_right, exists_or]

theorem rename_congr {formula : Formula} {first second : Symbol → Symbol}
    (agree : ∀ symbol, formula.Mentions symbol → first symbol = second symbol) :
    formula.rename first = formula.rename second := by
  induction formula with
  | bool | int => rfl
  | symbol name => rw [rename, rename, agree name .here]
  | unary op operand operandCase =>
      rw [rename, rename, operandCase fun symbol mentions => agree symbol (by simpa using mentions)]
  | binary op left right leftCase rightCase =>
      rw [rename, rename, leftCase fun symbol mentions => agree symbol (by simp [mentions]),
        rightCase fun symbol mentions => agree symbol (by simp [mentions])]
  | nary op operands operandCases =>
      have each : operands.map (rename first) = operands.map (rename second) :=
        List.map_congr_left fun operand member => operandCases operand member
          fun symbol mentions => agree symbol (mentions.of_child member)
      rw [rename, rename, renameAll_eq_map, renameAll_eq_map, each]
  | ite condition consequent alternative conditionCase consequentCase alternativeCase =>
      rw [rename, rename,
        conditionCase fun symbol mentions => agree symbol (by simp [mentions]),
        consequentCase fun symbol mentions => agree symbol (by simp [mentions]),
        alternativeCase fun symbol mentions => agree symbol (by simp [mentions])]

theorem rename_id (formula : Formula) : formula.rename id = formula := by
  induction formula with
  | bool | int | symbol => rfl
  | unary op operand operandCase => rw [rename, operandCase]
  | binary op left right leftCase rightCase => rw [rename, leftCase, rightCase]
  | nary op operands operandCases =>
      have each : operands.map (rename id) = operands.map id := List.map_congr_left operandCases
      rw [rename, renameAll_eq_map, each, List.map_id]
  | ite condition consequent alternative conditionCase consequentCase alternativeCase =>
      rw [rename, conditionCase, consequentCase, alternativeCase]

theorem rename_eq_self {formula : Formula}
    (kept : ∀ symbol, formula.Mentions symbol → change symbol = symbol) :
    formula.rename change = formula :=
  calc formula.rename change = formula.rename id := rename_congr kept
    _ = formula := rename_id formula

theorem rename_rename (formula : Formula) (first second : Symbol → Symbol) :
    (formula.rename first).rename second = formula.rename fun symbol => second (first symbol) := by
  induction formula with
  | bool | int | symbol => rfl
  | unary op operand operandCase => simp [rename, operandCase]
  | binary op left right leftCase rightCase => simp [rename, leftCase, rightCase]
  | nary op operands operandCases => simpa [rename] using operandCases
  | ite condition consequent alternative conditionCase consequentCase alternativeCase =>
      simp [rename, conditionCase, consequentCase, alternativeCase]

theorem PrimeFree.rename {formula : Formula} (free : formula.PrimeFree) :
    (formula.rename change).PrimeFree := by
  induction formula with
  | bool | int | symbol => simp [Formula.rename]
  | unary op operand operandCase =>
      obtain ⟨notPrime, free⟩ := (primeFree_unary ..).mp free
      exact (primeFree_unary ..).mpr ⟨notPrime, operandCase free⟩
  | binary op left right leftCase rightCase =>
      obtain ⟨freeLeft, freeRight⟩ := (primeFree_binary ..).mp free
      exact (primeFree_binary ..).mpr ⟨leftCase freeLeft, rightCase freeRight⟩
  | nary op operands operandCases =>
      simpa [Formula.rename] using
        fun operand member => operandCases operand member (free.child member)
  | ite condition consequent alternative conditionCase consequentCase alternativeCase =>
      obtain ⟨freeCondition, freeConsequent, freeAlternative⟩ := (primeFree_ite ..).mp free
      exact (primeFree_ite ..).mpr ⟨conditionCase freeCondition, consequentCase freeConsequent,
        alternativeCase freeAlternative⟩

end Formula

/-! ## Values -/

def EvalError.rename (change : Symbol → Symbol) : EvalError → EvalError
  | .unbound symbol => .unbound (change symbol)
  | .mismatch fault => .mismatch { fault with operand := fault.operand.rename change }
  | .primed formula => .primed (formula.rename change)
  | .overflow formula => .overflow (formula.rename change)

namespace Formula

variable {change : Symbol → Symbol}

section Values

variable {renamed original : Valuation}

private theorem mapError_asBool (operand : Formula) (evaluated : Except EvalError Value) :
    (asBool operand evaluated).mapError (.rename change) =
      asBool (operand.rename change) (evaluated.mapError (.rename change)) := by
  cases evaluated with
  | error => rfl
  | ok value => cases value <;> rfl

private theorem mapError_asInt (operand : Formula) (evaluated : Except EvalError Value) :
    (asInt operand evaluated).mapError (.rename change) =
      asInt (operand.rename change) (evaluated.mapError (.rename change)) := by
  cases evaluated with
  | error => rfl
  | ok value => cases value <;> rfl

private theorem mapError_inRange (formula : Formula) (result : Option Int64) :
    (inRange formula result).mapError (.rename change) =
      inRange (formula.rename change) result := by
  cases result <;> rfl

private theorem mapError_evaluateJunction {operands : List Formula} (neutral : Bool)
    (each : ∀ operand ∈ operands, (operand.evaluate original).mapError (.rename change) =
      (operand.rename change).evaluate renamed) :
    (evaluateJunction original neutral operands).mapError (.rename change) =
      evaluateJunction renamed neutral (operands.map (rename change)) := by
  induction operands with
  | nil => rfl
  | cons head rest induction =>
      obtain ⟨headCase, restCases⟩ := List.forall_mem_cons.mp each
      rw [evaluateJunction, Outcome.mapError_bind, mapError_asBool, headCase]
      refine congrArg (bind _) (funext fun holds => ?_)
      split
      · exact induction restCases
      · rfl

private theorem mapError_evaluateFold {operands : List Formula}
    (combine : Int64 → Int64 → Option Int64)
    (each : ∀ operand ∈ operands, (operand.evaluate original).mapError (.rename change) =
      (operand.rename change).evaluate renamed) (start : Int64) :
    (evaluateFold original combine start operands).mapError (.rename change) =
      evaluateFold renamed combine start (operands.map (rename change)) := by
  induction operands generalizing start with
  | nil => rfl
  | cons head rest induction =>
      obtain ⟨headCase, restCases⟩ := List.forall_mem_cons.mp each
      rw [evaluateFold, Outcome.mapError_bind, mapError_asInt, headCase]
      refine congrArg (bind _) (funext fun value => ?_)
      cases combine start value with
      | none => rfl
      | some next => exact induction restCases next

/-- A renamed formula evaluates like the formula, up to the names in errors, if
its symbols do. -/
theorem mapError_evaluate (formula : Formula)
    (agree : ∀ symbol, formula.Mentions symbol →
      renamed.get? (change symbol) = original.get? symbol) :
    (formula.evaluate original).mapError (.rename change) =
      (formula.rename change).evaluate renamed := by
  -- Only errors differ, so both sides look at the same operands.
  induction formula with
  | bool | int => rfl
  | symbol name =>
      rw [rename, evaluate, evaluate, agree name .here]
      cases original.get? name <;> rfl
  | unary op operand operandCase =>
      have same := operandCase fun symbol mentions => agree symbol (by simpa using mentions)
      cases op with
      | prime => rfl
      | not =>
          rw [evaluate, Outcome.mapError_bind, mapError_asBool, same]
          rfl
      | neg =>
          rw [evaluate, Outcome.mapError_bind, mapError_asInt, same]
          exact congrArg (bind _) (funext fun value => mapError_inRange ..)
  | binary op left right leftCase rightCase =>
      have sameLeft := leftCase fun symbol mentions => agree symbol (by simp [mentions])
      have sameRight := rightCase fun symbol mentions => agree symbol (by simp [mentions])
      cases op with
      | implies =>
          rw [evaluate, Outcome.mapError_bind, mapError_asBool, sameLeft]
          refine congrArg (bind _) (funext fun antecedent => ?_)
          cases antecedent with
          | false => rfl
          | true =>
              rw [if_pos rfl, Outcome.mapError_bind, mapError_asBool, sameRight]
              rfl
      | iff =>
          simp only [rename, evaluate, Outcome.mapError_bind, mapError_asBool, sameLeft, sameRight]
          rfl
      | eq | neq =>
          simp only [rename, evaluate, Outcome.mapError_bind, sameLeft, sameRight]
          rfl
      | lt | leq | gt | geq =>
          simp only [rename, evaluate, Outcome.mapError_bind, mapError_asInt, sameLeft, sameRight]
          rfl
      | sub | div | mod =>
          simp only [rename, evaluate, Outcome.mapError_bind, mapError_asInt, mapError_inRange,
            sameLeft, sameRight]
  | nary op operands operandCases =>
      have each : ∀ operand ∈ operands, (operand.evaluate original).mapError (.rename change) =
          (operand.rename change).evaluate renamed :=
        fun operand member => operandCases operand member fun symbol mentions =>
          agree symbol (mentions.of_child member)
      cases op with
      | and | or =>
          simp only [rename, renameAll_eq_map, evaluate, evaluateAll_eq, evaluateAny_eq,
            Outcome.mapError_bind, mapError_evaluateJunction _ each]
          rfl
      | add | mul =>
          simp only [rename, renameAll_eq_map, evaluate, evaluateSum_eq, evaluateProduct_eq,
            Outcome.mapError_bind, mapError_evaluateFold _ each, mapError_inRange]
  | ite condition consequent alternative conditionCase consequentCase alternativeCase =>
      have sameCondition := conditionCase fun symbol mentions => agree symbol (by simp [mentions])
      have sameConsequent := consequentCase fun symbol mentions => agree symbol (by simp [mentions])
      have sameAlternative :=
        alternativeCase fun symbol mentions => agree symbol (by simp [mentions])
      rw [evaluate, Outcome.mapError_bind, mapError_asBool, sameCondition]
      refine congrArg (bind _) (funext fun holds => ?_)
      cases holds with
      | false => exact sameAlternative
      | true => exact sameConsequent

end Values

theorem hasValue_rename_iff (formula : Formula) {assignment : Assignment} {value : Value} :
    (formula.rename change).HasValue assignment value ↔
      formula.HasValue (fun symbol => assignment (change symbol)) value := by
  rw [HasValue, HasValue, ← mapError_evaluate formula, Outcome.mapError_eq_ok_iff]
  intro symbol mentions
  rw [Assignment.get?_valuation _ (List.mem_singleton_self formula) mentions]
  exact assignment.get?_valuation (List.mem_singleton_self _)
    ((mentions_rename_iff formula _).mpr ⟨symbol, mentions, rfl⟩)

theorem hasTruth_rename_iff (formula : Formula) {assignment : Assignment} {holds : Bool} :
    (formula.rename change).HasTruth assignment holds ↔
      formula.HasTruth (fun symbol => assignment (change symbol)) holds :=
  hasValue_rename_iff formula

theorem Decided.rename {formula : Formula} (decided : formula.Decided)
    (kept : ∀ symbol, (change symbol).domain = symbol.domain) :
    (formula.rename change).Decided := by
  intro assignment within
  obtain ⟨holds, truth⟩ := decided (fun symbol => assignment (change symbol))
    fun symbol mentions => kept symbol ▸
      within (change symbol) ((mentions_rename_iff formula _).mpr ⟨symbol, mentions, rfl⟩)
  exact ⟨holds, (hasTruth_rename_iff formula).mpr truth⟩

end Formula

end SymbolicSafety
