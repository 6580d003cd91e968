import SymbolicSafety.Formula.Evaluation
import SymbolicSafety.Proofs.Sorting

namespace SymbolicSafety

/-! The value of a formula as a relation, and what it depends on. Evaluation
finds a value exactly when the relation gives one. -/

/-- What a binary operator makes of the values of both operands. There is no
result where the arithmetic leaves the 64-bit range, nor for values of the
wrong sort. -/
def BinaryOp.result? : BinaryOp → Value → Value → Option Value
  | .implies, .bool first, .bool second => some (.bool (!first || second))
  | .iff, .bool first, .bool second => some (.bool (first = second))
  | .eq, first, second => some (.bool (first = second))
  | .neq, first, second => some (.bool (first ≠ second))
  | .lt, .int first, .int second => some (.bool (first < second))
  | .leq, .int first, .int second => some (.bool (first ≤ second))
  | .gt, .int first, .int second => some (.bool (second < first))
  | .geq, .int first, .int second => some (.bool (second ≤ first))
  | .sub, .int first, .int second => (Word.sub? first second).map .int
  | .div, .int first, .int second => (Word.div? first second).map .int
  | .mod, .int first, .int second => (Word.mod? first second).map .int
  | _, _, _ => none

theorem Domain.sort_eq_of_contains {domain : Domain} {value : Value}
    (contains : domain.contains value = true) : value.sort = domain.sort := by
  cases domain <;> cases value <;> simp_all [Domain.contains, Value.sort, Domain.sort]

namespace Valuation

def Suits (valuation : Valuation) (formula : Formula) : Prop :=
  ∀ symbol, formula.Mentions symbol →
    ∃ value, valuation.get? symbol = some value ∧ value.sort = symbol.domain.sort

/-- Every symbol of the formula is bound to a value of its domain. -/
def Admits (valuation : Valuation) (formula : Formula) : Prop :=
  ∀ symbol, formula.Mentions symbol →
    ∃ value, valuation.get? symbol = some value ∧ symbol.domain.contains value = true

theorem Suits.child {valuation : Valuation} {formula child : Formula}
    (suits : valuation.Suits formula) (member : child ∈ formula.children) :
    valuation.Suits child :=
  fun symbol mentions => suits symbol (.of_child member mentions)

theorem Admits.suits {valuation : Valuation} {formula : Formula}
    (admits : valuation.Admits formula) : valuation.Suits formula := by
  intro symbol mentions
  obtain ⟨value, held, contains⟩ := admits symbol mentions
  exact ⟨value, held, Domain.sort_eq_of_contains contains⟩

end Valuation

namespace Formula

/-- The formula has the given value. Operands that need not be looked at may
have none. -/
inductive EvaluatesTo (valuation : Valuation) : Formula → Value → Prop where
  | bool (value : Bool) : EvaluatesTo valuation (.bool value) (.bool value)
  | int (value : Int64) : EvaluatesTo valuation (.int value) (.int value)
  | symbol {name : Symbol} {value : Value} :
      valuation.get? name = some value → EvaluatesTo valuation (.symbol name) value
  | not {operand : Formula} {value : Bool} :
      EvaluatesTo valuation operand (.bool value) →
      EvaluatesTo valuation (.unary .not operand) (.bool !value)
  | neg {operand : Formula} {value result : Int64} :
      EvaluatesTo valuation operand (.int value) → Word.neg? value = some result →
      EvaluatesTo valuation (.unary .neg operand) (.int result)
  | vacuous {left right : Formula} :
      EvaluatesTo valuation left (.bool false) →
      EvaluatesTo valuation (.binary .implies left right) (.bool true)
  | implied {left right : Formula} {value : Bool} :
      EvaluatesTo valuation left (.bool true) → EvaluatesTo valuation right (.bool value) →
      EvaluatesTo valuation (.binary .implies left right) (.bool value)
  | binary {op : BinaryOp} {left right : Formula} {first second result : Value} :
      op ≠ .implies → EvaluatesTo valuation left first → EvaluatesTo valuation right second →
      op.result? first second = some result →
      EvaluatesTo valuation (.binary op left right) result
  | all {operands : List Formula} :
      (∀ operand ∈ operands, EvaluatesTo valuation operand (.bool true)) →
      EvaluatesTo valuation (.nary .and operands) (.bool true)
  | notAll {operands before after : List Formula} {operand : Formula} :
      operands = before ++ operand :: after →
      (∀ earlier ∈ before, EvaluatesTo valuation earlier (.bool true)) →
      EvaluatesTo valuation operand (.bool false) →
      EvaluatesTo valuation (.nary .and operands) (.bool false)
  | any {operands before after : List Formula} {operand : Formula} :
      operands = before ++ operand :: after →
      (∀ earlier ∈ before, EvaluatesTo valuation earlier (.bool false)) →
      EvaluatesTo valuation operand (.bool true) →
      EvaluatesTo valuation (.nary .or operands) (.bool true)
  | none {operands : List Formula} :
      (∀ operand ∈ operands, EvaluatesTo valuation operand (.bool false)) →
      EvaluatesTo valuation (.nary .or operands) (.bool false)
  | sum {operands : List Formula} {value : Formula → Int64} {total : Int64} :
      (∀ operand ∈ operands, EvaluatesTo valuation operand (.int (value operand))) →
      (operands.map value).foldlM Word.add? 0 = some total →
      EvaluatesTo valuation (.nary .add operands) (.int total)
  | product {operands : List Formula} {value : Formula → Int64} {total : Int64} :
      (∀ operand ∈ operands, EvaluatesTo valuation operand (.int (value operand))) →
      (operands.map value).foldlM Word.mul? 1 = some total →
      EvaluatesTo valuation (.nary .mul operands) (.int total)
  | consequent {condition consequent alternative : Formula} {value : Value} :
      EvaluatesTo valuation condition (.bool true) → EvaluatesTo valuation consequent value →
      EvaluatesTo valuation (.ite condition consequent alternative) value
  | alternative {condition consequent alternative : Formula} {value : Value} :
      EvaluatesTo valuation condition (.bool false) → EvaluatesTo valuation alternative value →
      EvaluatesTo valuation (.ite condition consequent alternative) value

/-! ## Evaluation follows the relation -/

@[simp] theorem asBool_eq_ok_iff (operand : Formula) (evaluated : Except EvalError Value)
    (value : Bool) : asBool operand evaluated = .ok value ↔ evaluated = .ok (.bool value) := by
  cases evaluated with
  | error error => simp [asBool, bind, Except.bind]
  | ok found => cases found <;> simp [asBool, throw, throwThe, MonadExceptOf.throw]

@[simp] theorem asInt_eq_ok_iff (operand : Formula) (evaluated : Except EvalError Value)
    (value : Int64) : asInt operand evaluated = .ok value ↔ evaluated = .ok (.int value) := by
  cases evaluated with
  | error error => simp [asInt, bind, Except.bind]
  | ok found => cases found <;> simp [asInt, throw, throwThe, MonadExceptOf.throw]

@[simp] theorem inRange_eq_ok_iff (formula : Formula) (result : Option Int64) (value : Value) :
    inRange formula result = .ok value ↔ result.map .int = some value := by
  cases result <;> simp [inRange, throw, throwThe, MonadExceptOf.throw]

variable {valuation : Valuation}

/-! Conjunction and disjunction are one recursion, which goes on as long as
operands have the neutral value; sums and products are one recursion as well. -/

def evaluateJunction (valuation : Valuation) (neutral : Bool) :
    List Formula → Except EvalError Bool
  | [] => pure neutral
  | operand :: rest => do
      let holds ← asBool operand (operand.evaluate valuation)
      if holds = neutral then evaluateJunction valuation neutral rest else pure !neutral

theorem evaluateAll_eq (operands : List Formula) :
    evaluateAll valuation operands = evaluateJunction valuation true operands := by
  induction operands with
  | nil => rfl
  | cons head rest induction =>
      refine congrArg (bind _) (funext fun holds => ?_)
      cases holds with
      | false => rfl
      | true => exact induction

theorem evaluateAny_eq (operands : List Formula) :
    evaluateAny valuation operands = evaluateJunction valuation false operands := by
  induction operands with
  | nil => rfl
  | cons head rest induction =>
      refine congrArg (bind _) (funext fun holds => ?_)
      cases holds with
      | false => exact induction
      | true => rfl

def evaluateFold (valuation : Valuation) (combine : Int64 → Int64 → Option Int64)
    (start : Int64) : List Formula → Except EvalError (Option Int64)
  | [] => pure (some start)
  | operand :: rest => do
      let value ← asInt operand (operand.evaluate valuation)
      match combine start value with
      | some next => evaluateFold valuation combine next rest
      | none => pure none

theorem evaluateSum_eq (start : Int64) (operands : List Formula) :
    evaluateSum valuation start operands = evaluateFold valuation Word.add? start operands := by
  induction operands generalizing start with
  | nil => rfl
  | cons head rest induction =>
      refine congrArg (bind _) (funext fun value => ?_)
      cases Word.add? start value with
      | none => rfl
      | some next => exact induction next

theorem evaluateProduct_eq (start : Int64) (operands : List Formula) :
    evaluateProduct valuation start operands =
      evaluateFold valuation Word.mul? start operands := by
  induction operands generalizing start with
  | nil => rfl
  | cons head rest induction =>
      refine congrArg (bind _) (funext fun value => ?_)
      cases Word.mul? start value with
      | none => rfl
      | some next => exact induction next

private def Settles (valuation : Valuation) (neutral : Bool) (operands : List Formula) : Prop :=
  ∃ before operand after, operands = before ++ operand :: after ∧
    (∀ earlier ∈ before, earlier.evaluate valuation = .ok (.bool neutral)) ∧
    operand.evaluate valuation = .ok (.bool !neutral)

private theorem settles_cons_iff (neutral : Bool) (head : Formula) (rest : List Formula) :
    Settles valuation neutral (head :: rest) ↔
      head.evaluate valuation = .ok (.bool !neutral) ∨
      (head.evaluate valuation = .ok (.bool neutral) ∧ Settles valuation neutral rest) := by
  constructor
  · rintro ⟨before, operand, after, split, earlier, last⟩
    cases before with
    | nil =>
        simp only [List.nil_append, List.cons.injEq] at split
        exact .inl (split.1 ▸ last)
    | cons first before =>
        simp only [List.cons_append, List.cons.injEq] at split
        refine .inr ⟨split.1 ▸ earlier first List.mem_cons_self, before, operand, after,
          split.2, ?_, last⟩
        exact fun formula member => earlier formula (List.mem_cons_of_mem _ member)
  · rintro (last | ⟨first, before, operand, after, rfl, earlier, last⟩)
    · exact ⟨[], head, rest, rfl, by simp, last⟩
    · exact ⟨head :: before, operand, after, rfl, by simpa [first] using earlier, last⟩

private theorem evaluateJunction_eq_ok_iff (neutral : Bool) (operands : List Formula)
    (holds : Bool) :
    evaluateJunction valuation neutral operands = .ok holds ↔
      (holds = neutral ∧
        ∀ operand ∈ operands, operand.evaluate valuation = .ok (.bool neutral)) ∨
      (holds = !neutral ∧ Settles valuation neutral operands) := by
  induction operands with
  | nil => simpa [evaluateJunction, Settles] using eq_comm
  | cons head rest induction =>
      simp only [evaluateJunction, Outcome.bind_eq_ok_iff, asBool_eq_ok_iff, settles_cons_iff,
        Bool.exists_bool, List.forall_mem_cons]
      cases neutral <;> cases holds <;> simp [induction, or_comm]

private def wordAt (valuation : Valuation) (formula : Formula) : Int64 :=
  match formula.evaluate valuation with
  | .ok (.int value) => value
  | _ => 0

private theorem wordAt_of_evaluate {formula : Formula} {value : Int64}
    (evaluated : formula.evaluate valuation = .ok (.int value)) :
    wordAt valuation formula = value := by
  simp [wordAt, evaluated]

private theorem evaluateFold_eq_ok_iff (combine : Int64 → Int64 → Option Int64)
    (operands : List Formula) (start total : Int64) :
    evaluateFold valuation combine start operands = .ok (some total) ↔
      (∀ operand ∈ operands,
        operand.evaluate valuation = .ok (.int (wordAt valuation operand))) ∧
      (operands.map (wordAt valuation)).foldlM combine start = some total := by
  induction operands generalizing start with
  | nil => simp [evaluateFold]
  | cons head rest induction =>
      simp only [evaluateFold, Outcome.bind_eq_ok_iff, asInt_eq_ok_iff, List.forall_mem_cons,
        List.map_cons, List.foldlM_cons]
      constructor
      · rintro ⟨first, evaluated, continued⟩
        rw [wordAt_of_evaluate evaluated]
        cases combined : combine start first with
        | none => simp [combined] at continued
        | some next =>
            rw [combined] at continued
            obtain ⟨each, folded⟩ := (induction next).mp continued
            exact ⟨⟨evaluated, each⟩, folded⟩
      · rintro ⟨⟨evaluated, each⟩, folded⟩
        refine ⟨_, evaluated, ?_⟩
        cases combined : combine start (wordAt valuation head) with
        | none => simp [combined] at folded
        | some next =>
            rw [combined] at folded
            exact (induction next).mpr ⟨each, folded⟩

private theorem evaluate_binary_eq_ok_iff {op : BinaryOp} (strict : op ≠ .implies)
    (left right : Formula) (value : Value) :
    (Formula.binary op left right).evaluate valuation = .ok value ↔
      ∃ first second, left.evaluate valuation = .ok first ∧
        right.evaluate valuation = .ok second ∧ op.result? first second = some value := by
  cases op <;> simp at strict <;>
    simp only [evaluate, Outcome.bind_eq_ok_iff, asBool_eq_ok_iff, asInt_eq_ok_iff,
      Outcome.pure_eq_ok_iff, inRange_eq_ok_iff]
  all_goals
    constructor
    · rintro ⟨first, leftValue, second, rightValue, equal⟩
      exact ⟨_, _, leftValue, rightValue, by simpa [BinaryOp.result?] using equal⟩
    · rintro ⟨first, second, leftValue, rightValue, applied⟩
      cases first <;> cases second <;> simp [BinaryOp.result?] at applied <;>
        exact ⟨_, leftValue, _, rightValue, by simpa using applied⟩

private theorem evaluate_implies_eq_ok_iff (left right : Formula) (value : Value) :
    (Formula.binary .implies left right).evaluate valuation = .ok value ↔
      (left.evaluate valuation = .ok (.bool false) ∧ value = .bool true) ∨
      (left.evaluate valuation = .ok (.bool true) ∧
        ∃ second, right.evaluate valuation = .ok (.bool second) ∧ value = .bool second) := by
  simp only [evaluate, Outcome.bind_eq_ok_iff, asBool_eq_ok_iff, Bool.exists_bool,
    Bool.false_eq_true, if_false, if_true, Outcome.pure_eq_ok_iff, eq_comm (b := value)]

private theorem EvaluatesTo.of_evaluate {formula : Formula} {value : Value}
    (evaluated : formula.evaluate valuation = .ok value) :
    formula.EvaluatesTo valuation value := by
  induction formula generalizing value with
  | bool held =>
      simp only [evaluate, Outcome.pure_eq_ok_iff] at evaluated
      exact evaluated ▸ .bool held
  | int held =>
      simp only [evaluate, Outcome.pure_eq_ok_iff] at evaluated
      exact evaluated ▸ .int held
  | symbol name =>
      rw [evaluate] at evaluated
      split at evaluated
      next bound =>
        simp only [Outcome.pure_eq_ok_iff] at evaluated
        exact .symbol (evaluated ▸ bound)
      next => simp at evaluated
  | unary op operand operandCase =>
      cases op with
      | prime => simp [evaluate] at evaluated
      | not =>
          simp only [evaluate, Outcome.bind_eq_ok_iff, asBool_eq_ok_iff,
            Outcome.pure_eq_ok_iff] at evaluated
          obtain ⟨held, operandValue, rfl⟩ := evaluated
          exact .not (operandCase operandValue)
      | neg =>
          simp only [evaluate, Outcome.bind_eq_ok_iff, asInt_eq_ok_iff, inRange_eq_ok_iff,
            Option.map_eq_some_iff] at evaluated
          obtain ⟨held, operandValue, result, negated, rfl⟩ := evaluated
          exact .neg (operandCase operandValue) negated
  | binary op left right leftCase rightCase =>
      by_cases strict : op = .implies
      · subst strict
        rcases (evaluate_implies_eq_ok_iff left right value).mp evaluated with
          ⟨antecedent, rfl⟩ | ⟨antecedent, second, consequent, rfl⟩
        · exact .vacuous (leftCase antecedent)
        · exact .implied (leftCase antecedent) (rightCase consequent)
      · obtain ⟨first, second, leftValue, rightValue, applied⟩ :=
          (evaluate_binary_eq_ok_iff strict left right value).mp evaluated
        exact .binary strict (leftCase leftValue) (rightCase rightValue) applied
  | nary op operands operandCases =>
      cases op with
      | and =>
          simp only [evaluate, Outcome.bind_eq_ok_iff, evaluateAll_eq,
            evaluateJunction_eq_ok_iff, Outcome.pure_eq_ok_iff] at evaluated
          obtain ⟨-, ⟨rfl, each⟩ | ⟨rfl, before, operand, after, rfl, earlier, last⟩, rfl⟩ :=
            evaluated
          · exact .all fun operand member => operandCases operand member (each operand member)
          · refine .notAll rfl (fun formula member => ?_) (operandCases operand (by simp) last)
            exact operandCases formula (by simp [member]) (earlier formula member)
      | or =>
          simp only [evaluate, Outcome.bind_eq_ok_iff, evaluateAny_eq,
            evaluateJunction_eq_ok_iff, Outcome.pure_eq_ok_iff] at evaluated
          obtain ⟨-, ⟨rfl, each⟩ | ⟨rfl, before, operand, after, rfl, earlier, last⟩, rfl⟩ :=
            evaluated
          · exact .none fun operand member => operandCases operand member (each operand member)
          · refine .any rfl (fun formula member => ?_) (operandCases operand (by simp) last)
            exact operandCases formula (by simp [member]) (earlier formula member)
      | add =>
          simp only [evaluate, Outcome.bind_eq_ok_iff, evaluateSum_eq, inRange_eq_ok_iff,
            Option.map_eq_some_iff] at evaluated
          obtain ⟨-, folded, total, rfl, rfl⟩ := evaluated
          obtain ⟨each, combined⟩ := (evaluateFold_eq_ok_iff _ _ _ _).mp folded
          exact .sum (fun operand member => operandCases operand member (each operand member))
            combined
      | mul =>
          simp only [evaluate, Outcome.bind_eq_ok_iff, evaluateProduct_eq, inRange_eq_ok_iff,
            Option.map_eq_some_iff] at evaluated
          obtain ⟨-, folded, total, rfl, rfl⟩ := evaluated
          obtain ⟨each, combined⟩ := (evaluateFold_eq_ok_iff _ _ _ _).mp folded
          exact .product
            (fun operand member => operandCases operand member (each operand member)) combined
  | ite condition consequent alternative conditionCase consequentCase alternativeCase =>
      simp only [evaluate, Outcome.bind_eq_ok_iff, asBool_eq_ok_iff] at evaluated
      obtain ⟨holds, conditionValue, chosen⟩ := evaluated
      cases holds with
      | false => exact .alternative (conditionCase conditionValue) (alternativeCase chosen)
      | true => exact .consequent (conditionCase conditionValue) (consequentCase chosen)

/-- Evaluation finds exactly the values of the relation. -/
theorem evaluate_eq_ok_iff (formula : Formula) (value : Value) :
    formula.evaluate valuation = .ok value ↔ formula.EvaluatesTo valuation value := by
  refine ⟨.of_evaluate, fun derived => ?_⟩
  have folds (combine : Int64 → Int64 → Option Int64) (start total : Int64)
      (operands : List Formula) (value : Formula → Int64)
      (each : ∀ operand ∈ operands, operand.evaluate valuation = .ok (.int (value operand)))
      (combined : (operands.map value).foldlM combine start = some total) :
      evaluateFold valuation combine start operands = .ok (some total) := by
    have same : operands.map (wordAt valuation) = operands.map value :=
      List.map_congr_left fun operand member => wordAt_of_evaluate (each operand member)
    rw [evaluateFold_eq_ok_iff, same]
    refine ⟨fun operand member => ?_, combined⟩
    rw [each operand member, wordAt_of_evaluate (each operand member)]
  induction derived with
  | bool | int => rfl
  | symbol bound => simp [evaluate, bound]
  | not _ operandValue => simp [evaluate, operandValue]
  | neg _ negated operandValue => simp [evaluate, operandValue, negated]
  | vacuous _ antecedent =>
      exact (evaluate_implies_eq_ok_iff _ _ _).mpr (.inl ⟨antecedent, rfl⟩)
  | implied _ _ antecedent consequent =>
      exact (evaluate_implies_eq_ok_iff _ _ _).mpr (.inr ⟨antecedent, _, consequent, rfl⟩)
  | binary strict _ _ applied leftValue rightValue =>
      exact (evaluate_binary_eq_ok_iff strict _ _ _).mpr
        ⟨_, _, leftValue, rightValue, applied⟩
  | all _ each =>
      have holds := (evaluateJunction_eq_ok_iff true _ true).mpr (.inl ⟨rfl, each⟩)
      simp [evaluate, evaluateAll_eq, holds]
  | notAll split _ _ earlier last =>
      have holds := (evaluateJunction_eq_ok_iff true _ false).mpr
        (.inr ⟨rfl, _, _, _, split, earlier, last⟩)
      simp [evaluate, evaluateAll_eq, holds]
  | any split _ _ earlier last =>
      have holds := (evaluateJunction_eq_ok_iff false _ true).mpr
        (.inr ⟨rfl, _, _, _, split, earlier, last⟩)
      simp [evaluate, evaluateAny_eq, holds]
  | none _ each =>
      have holds := (evaluateJunction_eq_ok_iff false _ false).mpr (.inl ⟨rfl, each⟩)
      simp [evaluate, evaluateAny_eq, holds]
  | sum _ combined each =>
      simp [evaluate, evaluateSum_eq, folds _ _ _ _ _ each combined]
  | product _ combined each =>
      simp [evaluate, evaluateProduct_eq, folds _ _ _ _ _ each combined]
  | consequent _ _ conditionValue chosen => simp [evaluate, conditionValue, chosen]
  | alternative _ _ conditionValue chosen => simp [evaluate, conditionValue, chosen]

/-! ## What a value depends on -/

theorem EvaluatesTo.unique {formula : Formula} {value other : Value}
    (first : formula.EvaluatesTo valuation value) (second : formula.EvaluatesTo valuation other) :
    value = other := by
  rw [← evaluate_eq_ok_iff] at first second
  exact Except.ok.inj (first.symm.trans second)

theorem evaluate_congr {left right : Valuation} (formula : Formula)
    (agree : ∀ symbol, formula.Mentions symbol → left.get? symbol = right.get? symbol) :
    formula.evaluate left = formula.evaluate right := by
  induction formula with
  | bool | int => rfl
  | symbol name => simp only [evaluate, agree name (by simp)]
  | unary op operand operandCase =>
      have same := operandCase fun symbol mentions => agree symbol (by simpa using mentions)
      cases op <;> simp only [evaluate, same]
  | binary op first second firstCase secondCase =>
      have sameFirst := firstCase fun symbol mentions => agree symbol (by simp [mentions])
      have sameSecond := secondCase fun symbol mentions => agree symbol (by simp [mentions])
      cases op <;> simp only [evaluate, sameFirst, sameSecond]
  | nary op operands operandCases =>
      have same : ∀ operand ∈ operands, operand.evaluate left = operand.evaluate right :=
        fun operand member => operandCases operand member fun symbol mentions =>
          agree symbol (by simpa using ⟨operand, member, mentions⟩)
      have junctions (neutral : Bool) :
          evaluateJunction left neutral operands = evaluateJunction right neutral operands := by
        clear agree operandCases
        induction operands with
        | nil => rfl
        | cons head rest induction =>
            simp only [List.forall_mem_cons] at same
            simp only [evaluateJunction, same.1, induction same.2]
      have folds (combine : Int64 → Int64 → Option Int64) (start : Int64) :
          evaluateFold left combine start operands =
            evaluateFold right combine start operands := by
        clear agree operandCases junctions
        induction operands generalizing start with
        | nil => rfl
        | cons head rest induction =>
            simp only [List.forall_mem_cons] at same
            simp only [evaluateFold, same.1, induction same.2]
      cases op <;>
        simp only [evaluate, evaluateAll_eq, evaluateAny_eq, evaluateSum_eq, evaluateProduct_eq,
          junctions, folds]
  | ite condition consequent alternative conditionCase consequentCase alternativeCase =>
      have sameCondition :=
        conditionCase fun symbol mentions => agree symbol (by simp [mentions])
      have sameConsequent :=
        consequentCase fun symbol mentions => agree symbol (by simp [mentions])
      have sameAlternative :=
        alternativeCase fun symbol mentions => agree symbol (by simp [mentions])
      simp only [evaluate, sameCondition, sameConsequent, sameAlternative]

/-! ## Missing values -/

private def Extends {α : Type} (outcome other : Except EvalError α) : Prop :=
  (∃ symbol, outcome = .error (.unbound symbol)) ∨ outcome = other

private theorem Extends.refl {α : Type} (outcome : Except EvalError α) : Extends outcome outcome :=
  .inr rfl

private theorem Extends.bind {α β : Type} {outcome other : Except EvalError α}
    {next next' : α → Except EvalError β} (first : Extends outcome other)
    (second : ∀ result, Extends (next result) (next' result)) :
    Extends (outcome >>= next) (other >>= next') := by
  rcases first with ⟨symbol, rfl⟩ | rfl
  · exact .inl ⟨symbol, rfl⟩
  · cases outcome with
    | error error => exact .refl _
    | ok result => exact second result

private theorem Extends.asBool {evaluated other : Except EvalError Value} (operand : Formula)
    (operandCase : Extends evaluated other) :
    Extends (asBool operand evaluated) (asBool operand other) :=
  operandCase.bind fun _ => .refl _

private theorem Extends.asInt {evaluated other : Except EvalError Value} (operand : Formula)
    (operandCase : Extends evaluated other) :
    Extends (asInt operand evaluated) (asInt operand other) :=
  operandCase.bind fun _ => .refl _

section

variable {left right : Valuation} {operands : List Formula}
  (each : ∀ operand ∈ operands, Extends (operand.evaluate left) (operand.evaluate right))
include each

private theorem extends_junction (neutral : Bool) :
    Extends (evaluateJunction left neutral operands) (evaluateJunction right neutral operands) := by
  induction operands with
  | nil => exact .refl _
  | cons head rest induction =>
      rw [List.forall_mem_cons] at each
      refine (each.1.asBool head).bind fun holds => ?_
      split
      · exact induction each.2
      · exact .refl _

private theorem extends_fold (combine : Int64 → Int64 → Option Int64) (start : Int64) :
    Extends (evaluateFold left combine start operands)
      (evaluateFold right combine start operands) := by
  induction operands generalizing start with
  | nil => exact .refl _
  | cons head rest induction =>
      rw [List.forall_mem_cons] at each
      refine (each.1.asInt head).bind fun value => ?_
      split
      · exact induction each.2 _
      · exact .refl _

end

private theorem extends_binary {left right : Valuation} (op : BinaryOp) {first second : Formula}
    (firstCase : Extends (first.evaluate left) (first.evaluate right))
    (secondCase : Extends (second.evaluate left) (second.evaluate right)) :
    Extends ((Formula.binary op first second).evaluate left)
      ((Formula.binary op first second).evaluate right) := by
  cases op with
  | implies =>
      refine (firstCase.asBool first).bind fun antecedent => ?_
      split
      · exact (secondCase.asBool second).bind fun _ => .refl _
      · exact .refl _
  | iff =>
      exact (firstCase.asBool first).bind fun _ => (secondCase.asBool second).bind fun _ => .refl _
  | eq | neq => exact firstCase.bind fun _ => secondCase.bind fun _ => .refl _
  | lt | leq | gt | geq | sub | div | mod =>
      exact (firstCase.asInt first).bind fun _ => (secondCase.asInt second).bind fun _ => .refl _

/-- When more of its symbols are bound, a formula has the same value or fails
alike, unless the first valuation misses a symbol. -/
theorem evaluate_extend {left right : Valuation} (formula : Formula)
    (extends' : ∀ symbol value, formula.Mentions symbol → left.get? symbol = some value →
      right.get? symbol = some value) :
    (∃ symbol, formula.evaluate left = .error (.unbound symbol)) ∨
      formula.evaluate left = formula.evaluate right := by
  change Extends _ _
  induction formula with
  | bool | int => exact .refl _
  | symbol name =>
      simp only [evaluate]
      cases held : left.get? name with
      | none => exact .inl ⟨name, rfl⟩
      | some value =>
          rw [extends' name value (by simp) held]
          exact .refl _
  | unary op operand operandCase =>
      have ofOperand := operandCase fun symbol value mentions =>
        extends' symbol value (by simpa using mentions)
      cases op with
      | prime => exact .refl _
      | not => exact (ofOperand.asBool operand).bind fun _ => .refl _
      | neg => exact (ofOperand.asInt operand).bind fun _ => .refl _
  | binary op first second firstCase secondCase =>
      exact extends_binary op
        (firstCase fun symbol value mentions => extends' symbol value (by simp [mentions]))
        (secondCase fun symbol value mentions => extends' symbol value (by simp [mentions]))
  | nary op operands operandCases =>
      have each : ∀ operand ∈ operands,
          Extends (operand.evaluate left) (operand.evaluate right) :=
        fun operand member => operandCases operand member fun symbol value mentions =>
          extends' symbol value (by simpa using ⟨operand, member, mentions⟩)
      cases op <;> simp only [evaluate, evaluateAll_eq, evaluateAny_eq, evaluateSum_eq,
        evaluateProduct_eq]
      case and | or => exact (extends_junction each _).bind fun _ => .refl _
      case add | mul => exact (extends_fold each _ _).bind fun _ => .refl _
  | ite condition consequent alternative conditionCase consequentCase alternativeCase =>
      have ofCondition := conditionCase fun symbol value mentions =>
        extends' symbol value (by simp [mentions])
      have ofConsequent := consequentCase fun symbol value mentions =>
        extends' symbol value (by simp [mentions])
      have ofAlternative := alternativeCase fun symbol value mentions =>
        extends' symbol value (by simp [mentions])
      simp only [evaluate]
      refine (ofCondition.asBool condition).bind fun holds => ?_
      split
      · exact ofConsequent
      · exact ofAlternative

end Formula

end SymbolicSafety
