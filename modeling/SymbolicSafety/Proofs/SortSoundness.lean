import SymbolicSafety.Formula.Message
import SymbolicSafety.Proofs.Meaning

namespace SymbolicSafety

/-! Evaluation respects sorts. A well-sorted formula without primes has a value
of its sort wherever its symbols are bound to values of theirs. The one thing
that can go wrong is arithmetic that leaves the 64-bit range. -/

namespace Formula

variable {valuation : Valuation}

/-! ## Overflows -/

/-- The operands at the root of the formula have values, and the result of the
arithmetic on them is out of range. -/
inductive Overflows (valuation : Valuation) : Formula → Prop where
  | neg {operand : Formula} {value : Int64} :
      operand.EvaluatesTo valuation (.int value) → Word.neg? value = none →
      Overflows valuation (.unary .neg operand)
  | binary {op : BinaryOp} {left right : Formula} {first second : Int64} :
      op.Sorts .int .int .int → left.EvaluatesTo valuation (.int first) →
      right.EvaluatesTo valuation (.int second) →
      op.result? (.int first) (.int second) = none → Overflows valuation (.binary op left right)
  | sum {before after : List Formula} {operand : Formula} {total value : Int64} :
      (Formula.nary .add before).EvaluatesTo valuation (.int total) →
      operand.EvaluatesTo valuation (.int value) → Word.add? total value = none →
      Overflows valuation (.nary .add (before ++ operand :: after))
  | product {before after : List Formula} {operand : Formula} {total value : Int64} :
      (Formula.nary .mul before).EvaluatesTo valuation (.int total) →
      operand.EvaluatesTo valuation (.int value) → Word.mul? total value = none →
      Overflows valuation (.nary .mul (before ++ operand :: after))

private theorem exists_split_of_fold {combine : Int64 → Int64 → Option Int64} {start : Int64}
    {operands : List Formula} (outside : evaluateFold valuation combine start operands = .ok none) :
    ∃ before operand after total value, operands = before ++ operand :: after ∧
      evaluateFold valuation combine start before = .ok (some total) ∧
      operand.EvaluatesTo valuation (.int value) ∧ combine total value = none := by
  induction operands generalizing start with
  | nil => cases outside
  | cons head rest induction =>
      simp only [evaluateFold, Outcome.bind_eq_ok_iff, asInt_eq_ok_iff] at outside
      obtain ⟨value, evaluated, continued⟩ := outside
      cases combined : combine start value with
      | none =>
          exact ⟨[], head, rest, start, value, rfl, rfl, (evaluate_eq_ok_iff ..).mp evaluated,
            combined⟩
      | some next =>
          rw [combined] at continued
          obtain ⟨before, operand, after, total, last, rfl, folded, atLast, fails⟩ :=
            induction continued
          refine ⟨head :: before, operand, after, total, last, rfl, ?_, atLast, fails⟩
          simp [evaluateFold, evaluated, combined, folded]

private theorem overflows_sum {operands : List Formula}
    (outside : evaluateSum valuation 0 operands = .ok none) :
    (Formula.nary .add operands).Overflows valuation := by
  rw [evaluateSum_eq] at outside
  obtain ⟨before, operand, after, total, value, rfl, folded, evaluated, fails⟩ :=
    exists_split_of_fold outside
  refine .sum ((evaluate_eq_ok_iff ..).mp ?_) evaluated fails
  simp [evaluate, evaluateSum_eq, folded]

private theorem overflows_product {operands : List Formula}
    (outside : evaluateProduct valuation 1 operands = .ok none) :
    (Formula.nary .mul operands).Overflows valuation := by
  rw [evaluateProduct_eq] at outside
  obtain ⟨before, operand, after, total, value, rfl, folded, evaluated, fails⟩ :=
    exists_split_of_fold outside
  refine .product ((evaluate_eq_ok_iff ..).mp ?_) evaluated fails
  simp [evaluate, evaluateProduct_eq, folded]

/-! ## Evaluation of well-sorted formulas -/

private def Completes {α : Type} (blames : Formula → Prop) (accepts : α → Prop)
    (outcome : Except EvalError α) : Prop :=
  (∃ result, outcome = .ok result ∧ accepts result) ∨
    ∃ fault, outcome = .error (.overflow fault) ∧ blames fault

section Completion

variable {blames : Formula → Prop}

private theorem Completes.pure {α : Type} {accepts : α → Prop} {result : α}
    (accepted : accepts result) : Completes blames accepts (pure result) :=
  .inl ⟨result, rfl, accepted⟩

private theorem Completes.bind {α β : Type} {accepts : α → Prop} {accepts' : β → Prop}
    {outcome : Except EvalError α} {next : α → Except EvalError β}
    (first : Completes blames accepts outcome)
    (second : ∀ result, outcome = .ok result → accepts result →
      Completes blames accepts' (next result)) :
    Completes blames accepts' (outcome >>= next) := by
  rcases first with ⟨result, rfl, accepted⟩ | ⟨fault, rfl, blamed⟩
  · exact second result rfl accepted
  · exact .inr ⟨fault, rfl, blamed⟩

private theorem Completes.asBool {evaluated : Except EvalError Value} (operand : Formula)
    (completes : Completes blames (·.sort = .bool) evaluated) :
    Completes blames (fun _ => True) (asBool operand evaluated) := by
  rcases completes with ⟨value, rfl, sort⟩ | ⟨fault, rfl, blamed⟩
  · cases value with
    | bool value => exact .inl ⟨value, rfl, trivial⟩
    | int value => simp [Value.sort] at sort
  · exact .inr ⟨fault, rfl, blamed⟩

private theorem Completes.asInt {evaluated : Except EvalError Value} (operand : Formula)
    (completes : Completes blames (·.sort = .int) evaluated) :
    Completes blames (fun _ => True) (asInt operand evaluated) := by
  rcases completes with ⟨value, rfl, sort⟩ | ⟨fault, rfl, blamed⟩
  · cases value with
    | bool value => simp [Value.sort] at sort
    | int value => exact .inl ⟨value, rfl, trivial⟩
  · exact .inr ⟨fault, rfl, blamed⟩

private theorem completes_inRange {formula : Formula} {result : Option Int64}
    (blamed : result = none → blames formula) :
    Completes blames (·.sort = .int) (inRange formula result) := by
  cases result with
  | none => exact .inr ⟨formula, rfl, blamed rfl⟩
  | some value => exact .inl ⟨_, rfl, rfl⟩

private theorem completes_binary {op : BinaryOp} {left right : Formula}
    {first second sort : ValueSort} (sorts : op.Sorts first second sort)
    (blamed : (Formula.binary op left right).Overflows valuation → blames (.binary op left right))
    (leftCompletes : Completes blames (·.sort = first) (left.evaluate valuation))
    (rightCompletes : Completes blames (·.sort = second) (right.evaluate valuation)) :
    Completes blames (·.sort = sort) ((Formula.binary op left right).evaluate valuation) := by
  cases op <;> simp only [BinaryOp.Sorts] at sorts <;> obtain ⟨rfl, sorts⟩ := sorts <;>
    simp only [evaluate]
  case implies =>
    obtain ⟨rfl, rfl⟩ := sorts
    refine (leftCompletes.asBool left).bind fun antecedent _ _ => ?_
    cases antecedent with
    | false => exact .pure rfl
    | true => exact (rightCompletes.asBool right).bind fun consequent _ _ => .pure rfl
  case iff =>
    obtain ⟨rfl, rfl⟩ := sorts
    exact (leftCompletes.asBool left).bind fun _ _ _ =>
      (rightCompletes.asBool right).bind fun _ _ _ => .pure rfl
  case eq | neq =>
    subst sorts
    exact leftCompletes.bind fun _ _ _ => rightCompletes.bind fun _ _ _ => .pure rfl
  case lt | leq | gt | geq =>
    obtain ⟨rfl, rfl⟩ := sorts
    exact (leftCompletes.asInt left).bind fun _ _ _ =>
      (rightCompletes.asInt right).bind fun _ _ _ => .pure rfl
  case sub | div | mod =>
    obtain ⟨rfl, rfl⟩ := sorts
    refine (leftCompletes.asInt left).bind fun first leftValue _ =>
      (rightCompletes.asInt right).bind fun second rightValue _ =>
        completes_inRange fun outside => blamed ?_
    rw [asInt_eq_ok_iff, evaluate_eq_ok_iff] at leftValue rightValue
    exact .binary ⟨rfl, rfl, rfl⟩ leftValue rightValue (by simp [BinaryOp.result?, outside])

private theorem completes_junction (neutral : Bool) {operands : List Formula}
    (each : ∀ operand ∈ operands, Completes blames (·.sort = .bool) (operand.evaluate valuation)) :
    Completes blames (fun _ => True) (evaluateJunction valuation neutral operands) := by
  induction operands with
  | nil => exact .pure trivial
  | cons head rest induction =>
      rw [List.forall_mem_cons] at each
      refine (each.1.asBool head).bind fun holds _ _ => ?_
      split
      · exact induction each.2
      · exact .pure trivial

private theorem completes_fold (combine : Int64 → Int64 → Option Int64) (start : Int64)
    {operands : List Formula}
    (each : ∀ operand ∈ operands, Completes blames (·.sort = .int) (operand.evaluate valuation)) :
    Completes blames (fun _ => True) (evaluateFold valuation combine start operands) := by
  induction operands generalizing start with
  | nil => exact .pure trivial
  | cons head rest induction =>
      rw [List.forall_mem_cons] at each
      refine (each.1.asInt head).bind fun value _ _ => ?_
      split
      · exact induction _ each.2
      · exact .pure trivial

private theorem completes_evaluate {formula : Formula} {sort : ValueSort}
    (typed : formula.HasSort sort) (free : formula.PrimeFree)
    (suited : valuation.Suits formula)
    (blamed : ∀ part, Occurs part formula → part.Overflows valuation → blames part) :
    Completes blames (·.sort = sort) (formula.evaluate valuation) := by
  induction typed with
  | bool | int => exact .pure rfl
  | symbol name =>
      obtain ⟨value, held, sort⟩ := suited name (by simp)
      simp only [evaluate, held]
      exact .pure sort
  | prime => exact (not_primeFree_prime _ free).elim
  | @not operand _ operandCase =>
      have member : operand ∈ (Formula.unary .not operand).children := by simp [children]
      have completes := operandCase (free.child member) (suited.child member)
        fun part occurs => blamed part (.within member occurs)
      exact (completes.asBool operand).bind fun _ _ _ => .pure rfl
  | @neg operand _ operandCase =>
      have member : operand ∈ (Formula.unary .neg operand).children := by simp [children]
      have completes := operandCase (free.child member) (suited.child member)
        fun part occurs => blamed part (.within member occurs)
      refine (completes.asInt operand).bind fun value evaluated _ =>
        completes_inRange fun outside => blamed _ .here ?_
      rw [asInt_eq_ok_iff, evaluate_eq_ok_iff] at evaluated
      exact .neg evaluated outside
  | @binary op left right _ _ _ sorts _ _ leftCase rightCase =>
      have leftMember : left ∈ (Formula.binary op left right).children := by simp [children]
      have rightMember : right ∈ (Formula.binary op left right).children := by simp [children]
      exact completes_binary sorts (blamed _ .here)
        (leftCase (free.child leftMember) (suited.child leftMember)
          fun part occurs => blamed part (.within leftMember occurs))
        (rightCase (free.child rightMember) (suited.child rightMember)
          fun part occurs => blamed part (.within rightMember occurs))
  | @nary op operands _ operandCases =>
      have each : ∀ operand ∈ operands,
          Completes blames (·.sort = op.sort) (operand.evaluate valuation) :=
        fun operand member =>
          have below : operand ∈ (Formula.nary op operands).children := member
          operandCases operand member (free.child below) (suited.child below)
            fun part occurs => blamed part (.within below occurs)
      cases op with
      | and =>
          rw [evaluate, evaluateAll_eq]
          exact (completes_junction true each).bind fun _ _ _ => .pure rfl
      | or =>
          rw [evaluate, evaluateAny_eq]
          exact (completes_junction false each).bind fun _ _ _ => .pure rfl
      | add =>
          have completes := completes_fold Word.add? 0 each
          rw [← evaluateSum_eq] at completes
          exact completes.bind fun result folded _ => completes_inRange fun outside =>
            blamed _ .here (overflows_sum (outside ▸ folded))
      | mul =>
          have completes := completes_fold Word.mul? 1 each
          rw [← evaluateProduct_eq] at completes
          exact completes.bind fun result folded _ => completes_inRange fun outside =>
            blamed _ .here (overflows_product (outside ▸ folded))
  | @ite condition consequent alternative _ _ _ _ conditionCase consequentCase
      alternativeCase =>
      -- Only the operand that is chosen needs a value, but any of them may be blamed.
      have operandCase (child : Formula) (member :
          child ∈ (Formula.ite condition consequent alternative).children) :
          child.PrimeFree ∧ valuation.Suits child ∧
            ∀ part, Occurs part child → part.Overflows valuation → blames part :=
        ⟨free.child member, suited.child member,
          fun part occurs => blamed part (.within member occurs)⟩
      simp only [children, List.forall_mem_cons] at operandCase
      obtain ⟨⟨freeCondition, suitedCondition, blamedCondition⟩,
        ⟨freeConsequent, suitedConsequent, blamedConsequent⟩,
        ⟨freeAlternative, suitedAlternative, blamedAlternative⟩, -⟩ := operandCase
      rw [evaluate]
      refine ((conditionCase freeCondition suitedCondition blamedCondition).asBool condition).bind
        fun holds _ _ => ?_
      cases holds with
      | false => exact alternativeCase freeAlternative suitedAlternative blamedAlternative
      | true => exact consequentCase freeConsequent suitedConsequent blamedConsequent

end Completion

/-- A well-sorted formula without primes has a value of its sort wherever its
symbols are bound to values of theirs, unless the arithmetic in some part of it
overflows. -/
theorem evaluate_cases {formula : Formula} {sort : ValueSort} (typed : formula.HasSort sort)
    (free : formula.PrimeFree) (suited : valuation.Suits formula) :
    (∃ value, formula.evaluate valuation = .ok value ∧ value.sort = sort) ∨
      ∃ fault, formula.evaluate valuation = .error (.overflow fault) ∧ Occurs fault formula ∧
        fault.Overflows valuation :=
  completes_evaluate typed free suited fun _ occurs overflows => ⟨occurs, overflows⟩

theorem evaluate_of_hasSort {formula : Formula} {sort : ValueSort}
    (typed : formula.HasSort sort) (free : formula.PrimeFree)
    (suited : valuation.Suits formula) :
    (∃ value, formula.evaluate valuation = .ok value ∧ value.sort = sort) ∨
      ∃ fault, formula.evaluate valuation = .error (.overflow fault) := by
  refine (evaluate_cases typed free suited).imp_right ?_
  rintro ⟨fault, overflow, -⟩
  exact ⟨fault, overflow⟩

theorem occurs_of_overflow {formula fault : Formula} {sort : ValueSort}
    (typed : formula.HasSort sort) (free : formula.PrimeFree) (suited : valuation.Suits formula)
    (overflow : formula.evaluate valuation = .error (.overflow fault)) :
    Occurs fault formula := by
  rcases evaluate_cases typed free suited with
    ⟨value, evaluated, -⟩ | ⟨blamed, overflow', occurs, -⟩
  · rw [overflow] at evaluated
    cases evaluated
  · rw [overflow] at overflow'
    cases overflow'
    exact occurs

theorem EvaluatesTo.sort_eq {formula : Formula} {sort : ValueSort} {value : Value}
    (evaluated : formula.EvaluatesTo valuation value) (typed : formula.HasSort sort)
    (free : formula.PrimeFree) (suited : valuation.Suits formula) : value.sort = sort := by
  have found := (evaluate_eq_ok_iff formula value).mpr evaluated
  rcases evaluate_of_hasSort typed free suited with ⟨other, evaluated', sorted⟩ | ⟨fault, overflow⟩
  · obtain rfl := Except.ok.inj (found.symm.trans evaluated')
    exact sorted
  · simp [overflow] at found

theorem evaluate_of_isBoolean {formula : Formula} (boolean : formula.IsBoolean)
    (free : formula.PrimeFree) (suited : valuation.Suits formula) :
    (∃ holds, formula.evaluate valuation = .ok (.bool holds)) ∨
      ∃ fault, formula.evaluate valuation = .error (.overflow fault) := by
  rcases evaluate_of_hasSort ((inferSort_eq_ok_iff _ _).mp boolean) free suited with
    ⟨value, evaluated, sort⟩ | overflow
  · cases value with
    | bool holds => exact .inl ⟨holds, evaluated⟩
    | int value => simp [Value.sort] at sort
  · exact .inr overflow

/-! ## Inferred sorts -/

theorem message?_overflow_eq_none_iff (fault : Formula) :
    (EvalError.overflow fault).message? = none ↔ maxNesting < fault.nesting := by
  rw [← Nat.not_le]
  by_cases shallow : fault.nesting ≤ maxNesting <;>
    simp [EvalError.message?, text?, render?, printable, shallow]

/-- If a sort can be inferred for a formula without primes, then its evaluation
where all symbols are bound to values of their sorts gives a value of that sort,
or some part of the formula overflows and is blamed for it. No other error is
reported. -/
theorem evaluates_within_sort {formula : Formula} {sort : ValueSort}
    (inferred : formula.inferSort = .ok sort) (free : formula.PrimeFree)
    (suited : valuation.Suits formula) :
    ((∃ value, formula.evaluate valuation = .ok value ∧ value.sort = sort) ∨
      ∃ fault, formula.evaluate valuation = .error (.overflow fault) ∧
        Occurs fault formula ∧ fault.Overflows valuation ∧
        ((EvalError.overflow fault).message? = none ↔ maxNesting < fault.nesting)) ∧
    ∀ error, formula.evaluate valuation = .error error →
      (∀ mismatch, error ≠ .mismatch mismatch) ∧ (∀ symbol, error ≠ .unbound symbol) ∧
        ∀ part, error ≠ .primed part := by
  have cases := evaluate_cases ((inferSort_eq_ok_iff ..).mp inferred) free suited
  constructor
  · refine cases.imp_right ?_
    rintro ⟨fault, overflow, occurs, overflows⟩
    exact ⟨fault, overflow, occurs, overflows, message?_overflow_eq_none_iff fault⟩
  · intro error failed
    rcases cases with ⟨value, evaluated, -⟩ | ⟨fault, overflow, -⟩
    · rw [failed] at evaluated
      cases evaluated
    · rw [failed] at overflow
      obtain rfl := Except.error.inj overflow
      simp

namespace Guarded

def count : Variable := ⟨0, "x", .int⟩

def flag : Variable := ⟨1, "b", .bool⟩

def next : Formula :=
  .ite (.binary .eq (.current flag) (.binary .lt (.current count) (.int 3)))
    (.nary .add [.current count, .int 1]) (.unary .neg (.current count))

def bindings (number : Int64) (small : Bool) : Valuation :=
  SortedMap.ofList [(.current count, .int number), (.current flag, .bool small)]

private theorem primeFree_next : next.PrimeFree := by simp [next, current]

private theorem suits_bindings (number : Int64) (small : Bool) :
    (bindings number small).Suits next := by
  intro symbol mentions
  have either : symbol = .current flag ∨ symbol = .current count := by
    simpa [next, current, or_assoc] using mentions
  rcases either with rfl | rfl
  · exact ⟨.bool small, by simp [bindings, SortedMap.ofList, SortedMap.get?_insert], rfl⟩
  · exact ⟨.int number,
      by simp [bindings, SortedMap.ofList, SortedMap.get?_insert, count, flag], rfl⟩

theorem evaluates_within_sort_next :
    (next.inferSort = .ok .int ∧ next.PrimeFree ∧ (bindings 2 true).Suits next ∧
      ∃ value, next.evaluate (bindings 2 true) = .ok value ∧ value.sort = .int) ∧
    ((bindings Int64.maxValue false).Suits next ∧
      ∃ fault, next.evaluate (bindings Int64.maxValue false) = .error (.overflow fault) ∧
        Occurs fault next ∧ fault.Overflows (bindings Int64.maxValue false)) := by
  have inferred : next.inferSort = .ok .int := rfl
  refine ⟨⟨inferred, primeFree_next, suits_bindings 2 true, ?_⟩, suits_bindings _ _, ?_⟩
  · rcases (evaluates_within_sort inferred primeFree_next (suits_bindings 2 true)).1 with
      valued | ⟨fault, overflow, -⟩
    · exact valued
    · have evaluated : next.evaluate (bindings 2 true) = .ok (.int 3) := rfl
      rw [evaluated] at overflow
      cases overflow
  · rcases (evaluates_within_sort inferred primeFree_next
      (suits_bindings Int64.maxValue false)).1 with ⟨value, evaluated, -⟩ | overflow
    · have overflow : next.evaluate (bindings Int64.maxValue false) =
          .error (.overflow (.nary .add [.current count, .int 1])) := rfl
      rw [overflow] at evaluated
      cases evaluated
    · obtain ⟨fault, overflow, occurs, overflows, -⟩ := overflow
      exact ⟨fault, overflow, occurs, overflows⟩

end Guarded

end Formula

end SymbolicSafety
