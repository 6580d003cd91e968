import SymbolicSafety.Proofs.IntervalArithmetic
import SymbolicSafety.Proofs.Junctions

namespace SymbolicSafety

/-! The builders against the nodes that they stand for. What a builder makes of
its operands has the sort of the plain node, mentions nothing else, and has the
value of the plain node wherever that has one. A sum is the exception: its
literals are moved to the end, and another order of the operands can overflow
where the given one does not. -/

namespace Word

theorem mul?_one_left (word : Int64) : mul? 1 word = some word :=
  (ofInt?_eq_some_iff ..).mpr (by simp)

theorem sub?_zero_right (word : Int64) : sub? word 0 = some word :=
  (ofInt?_eq_some_iff ..).mpr (by simp)

theorem neg?_neg? {word negated result : Int64} (first : neg? word = some negated)
    (second : neg? negated = some result) : result = word := by
  have firstValue : negated.toInt = -word.toInt := (ofInt?_eq_some_iff ..).mp first
  have secondValue : result.toInt = -negated.toInt := (ofInt?_eq_some_iff ..).mp second
  apply Int64.toInt_inj.mp
  omega

end Word

namespace Formula

variable {valuation : Valuation}

/-! ## Values and sorts of the plain nodes -/

theorem evaluatesTo_bool_iff (held : Bool) (value : Value) :
    (Formula.bool held).EvaluatesTo valuation value ↔ value = .bool held :=
  ⟨fun evaluated => evaluated.unique (.bool held), fun equal => equal ▸ .bool held⟩

theorem evaluatesTo_int_iff (held : Int64) (value : Value) :
    (Formula.int held).EvaluatesTo valuation value ↔ value = .int held :=
  ⟨fun evaluated => evaluated.unique (.int held), fun equal => equal ▸ .int held⟩

theorem evaluatesTo_implies_iff (left right : Formula) (value : Value) :
    (Formula.binary .implies left right).EvaluatesTo valuation value ↔
      (left.EvaluatesTo valuation (.bool false) ∧ value = .bool true) ∨
      (left.EvaluatesTo valuation (.bool true) ∧
        ∃ holds, right.EvaluatesTo valuation (.bool holds) ∧ value = .bool holds) := by
  constructor
  · intro evaluated
    cases evaluated with
    | vacuous antecedent => exact .inl ⟨antecedent, rfl⟩
    | implied antecedent consequent => exact .inr ⟨antecedent, _, consequent, rfl⟩
    | binary strict => exact absurd rfl strict
  · rintro (⟨antecedent, rfl⟩ | ⟨antecedent, holds, consequent, rfl⟩)
    · exact .vacuous antecedent
    · exact .implied antecedent consequent

theorem evaluatesTo_binary_iff {op : BinaryOp} (strict : op ≠ .implies) (left right : Formula)
    (value : Value) :
    (Formula.binary op left right).EvaluatesTo valuation value ↔
      ∃ first second, left.EvaluatesTo valuation first ∧ right.EvaluatesTo valuation second ∧
        op.result? first second = some value := by
  constructor
  · intro evaluated
    cases evaluated with
    | vacuous | implied => exact absurd rfl strict
    | binary _ first second applied => exact ⟨_, _, first, second, applied⟩
  · rintro ⟨first, second, leftValue, rightValue, applied⟩
    exact .binary strict leftValue rightValue applied

theorem hasSort_binary_iff (op : BinaryOp) (left right : Formula) (sort : ValueSort) :
    (Formula.binary op left right).HasSort sort ↔
      ∃ first second, op.Sorts first second sort ∧ left.HasSort first ∧ right.HasSort second := by
  constructor
  · intro typed
    cases typed with
    | binary sorts leftTyped rightTyped => exact ⟨_, _, sorts, leftTyped, rightTyped⟩
  · rintro ⟨first, second, sorts, leftTyped, rightTyped⟩
    exact .binary sorts leftTyped rightTyped

/-! ## Builders that keep every value -/

structure Preserves (built plain : Formula) : Prop where
  hasSort : ∀ {sort}, plain.HasSort sort → built.HasSort sort
  mentions : ∀ {symbol}, built.Mentions symbol → plain.Mentions symbol
  evaluatesTo : ∀ {valuation value},
    plain.EvaluatesTo valuation value → built.EvaluatesTo valuation value

theorem Preserves.refl (formula : Formula) : Preserves formula formula := ⟨id, id, id⟩

theorem preserves_mkNot (operand : Formula) :
    Preserves (mkNot operand) (.unary .not operand) where
  hasSort typed := by
    cases typed with
    | not typed => exact typed.mkNot
  mentions mentions := by
    rw [mkNot_mentions_iff] at mentions
    simpa using mentions
  evaluatesTo evaluated := by
    cases evaluated with
    | not evaluated =>
        rw [mkNot_evaluatesTo_iff]
        simpa using evaluated

theorem preserves_mkNeg (operand : Formula) :
    Preserves (mkNeg operand) (.unary .neg operand) := by
  unfold mkNeg
  split
  next literal =>
    cases negated : Word.neg? literal with
    | none => exact .refl _
    | some result =>
        refine ⟨fun typed => ?_, by simp, fun evaluated => ?_⟩
        · cases typed with
          | neg => exact .int result
        · cases evaluated with
          | neg evaluated applied =>
              obtain rfl := Value.int.inj ((evaluatesTo_int_iff ..).mp evaluated)
              rw [negated] at applied
              exact Option.some.inj applied ▸ .int result
  next inner =>
    refine ⟨fun typed => ?_, by simp, fun evaluated => ?_⟩
    · cases typed with
      | neg typed =>
          cases typed with
          | neg typed => exact typed
    · cases evaluated with
      | neg evaluated second =>
          cases evaluated with
          | neg evaluated first => exact Word.neg?_neg? first second ▸ evaluated
  next => exact .refl _

theorem preserves_junction {op : NaryOp} {neutral : Bool} (kind : Neutral op neutral)
    (operands : List Formula) : Preserves (junction op neutral operands) (.nary op operands) where
  hasSort typed := by
    have boolean : op.sort = .bool := by
      rcases kind with ⟨rfl, -⟩ | ⟨rfl, -⟩ <;> rfl
    obtain ⟨rfl, each⟩ := (hasSort_nary_iff ..).mp typed
    rw [boolean] at each ⊢
    exact .junction boolean each
  mentions mentions := (mentions_nary ..).mpr (mentions_of_junction mentions)
  evaluatesTo evaluated := by
    rcases (evaluatesTo_nary_iff kind ..).mp evaluated with ⟨rfl, each⟩ | ⟨rfl, settled⟩
    · exact (junction_evaluatesTo_neutral_iff kind operands).mpr each
    · exact junction_evaluatesTo_of_settled kind settled

theorem preserves_mkImplies (left right : Formula) :
    Preserves (mkImplies left right) (.binary .implies left right) := by
  have boolean {left right : Formula} {sort : ValueSort}
      (typed : (Formula.binary .implies left right).HasSort sort) :
      sort = .bool ∧ left.HasSort .bool ∧ right.HasSort .bool := by
    obtain ⟨_, _, ⟨rfl, rfl, rfl⟩, leftTyped, rightTyped⟩ := (hasSort_binary_iff ..).mp typed
    exact ⟨rfl, leftTyped, rightTyped⟩
  unfold mkImplies
  split
  · -- A false antecedent.
    refine ⟨fun typed => (boolean typed).1 ▸ .bool true, by simp, fun evaluated => ?_⟩
    simpa [evaluatesTo_implies_iff, evaluatesTo_bool_iff] using evaluated
  · -- A true consequent.
    refine ⟨fun typed => (boolean typed).1 ▸ .bool true, by simp, fun evaluated => ?_⟩
    simp only [evaluatesTo_implies_iff, evaluatesTo_bool_iff, Value.bool.injEq,
      exists_eq_left] at evaluated ⊢
    exact evaluated.elim And.right And.right
  · -- A true antecedent.
    refine ⟨fun typed => (boolean typed).1 ▸ (boolean typed).2.2, by simp_all, fun evaluated => ?_⟩
    simp only [evaluatesTo_implies_iff, evaluatesTo_bool_iff, Value.bool.injEq, Bool.false_eq_true,
      false_and, true_and, false_or] at evaluated
    obtain ⟨holds, consequent, rfl⟩ := evaluated
    exact consequent
  · -- A false consequent.
    refine ⟨fun typed => (boolean typed).1 ▸ (boolean typed).2.1.mkNot, fun mentions => ?_,
      fun evaluated => ?_⟩
    · rw [mkNot_mentions_iff] at mentions
      exact (mentions_binary ..).mpr (.inl mentions)
    · simp only [evaluatesTo_implies_iff, evaluatesTo_bool_iff, Value.bool.injEq,
        exists_eq_left] at evaluated
      rcases evaluated with ⟨antecedent, rfl⟩ | ⟨antecedent, rfl⟩
      · exact (mkNot_evaluatesTo_iff ..).mpr antecedent
      · exact (mkNot_evaluatesTo_iff ..).mpr antecedent
  · exact .refl _

theorem Preserves.trans {first second third : Formula} (left : Preserves first second)
    (right : Preserves second third) : Preserves first third where
  hasSort typed := left.hasSort (right.hasSort typed)
  mentions mentions := right.mentions (left.mentions mentions)
  evaluatesTo evaluated := left.evaluatesTo (right.evaluatesTo evaluated)

private theorem evaluatesTo_equivalence_iff (left right : Formula) (value : Value) :
    (Formula.binary .iff left right).EvaluatesTo valuation value ↔
      ∃ first second, left.EvaluatesTo valuation (.bool first) ∧
        right.EvaluatesTo valuation (.bool second) ∧ value = .bool (first = second) := by
  rw [evaluatesTo_binary_iff (by decide)]
  constructor
  · rintro ⟨first, second, leftValue, rightValue, applied⟩
    cases first <;> cases second <;> simp only [BinaryOp.result?, reduceCtorEq] at applied
    exact ⟨_, _, leftValue, rightValue, (Option.some.inj applied).symm⟩
  · rintro ⟨first, second, leftValue, rightValue, rfl⟩
    exact ⟨_, _, leftValue, rightValue, rfl⟩

private theorem preserves_equivalence_comm (left right : Formula) :
    Preserves (.binary .iff left right) (.binary .iff right left) where
  hasSort typed := by
    obtain ⟨_, _, ⟨rfl, rfl, rfl⟩, rightTyped, leftTyped⟩ := (hasSort_binary_iff ..).mp typed
    exact .binary ⟨rfl, rfl, rfl⟩ leftTyped rightTyped
  mentions mentions := by
    rw [mentions_binary] at mentions ⊢
    exact mentions.symm
  evaluatesTo evaluated := by
    obtain ⟨first, second, rightValue, leftValue, rfl⟩ :=
      (evaluatesTo_equivalence_iff ..).mp evaluated
    refine (evaluatesTo_equivalence_iff ..).mpr ⟨second, first, leftValue, rightValue, ?_⟩
    simp only [eq_comm]

private theorem preserves_equivalence_literal (holds : Bool) (operand : Formula) :
    Preserves (if holds then operand else mkNot operand)
      (.binary .iff (.bool holds) operand) where
  hasSort typed := by
    obtain ⟨_, _, ⟨rfl, rfl, rfl⟩, -, operandTyped⟩ := (hasSort_binary_iff ..).mp typed
    cases holds with
    | false => exact operandTyped.mkNot
    | true => exact operandTyped
  mentions mentions := by
    refine (mentions_binary ..).mpr (.inr ?_)
    cases holds with
    | false => exact (mkNot_mentions_iff ..).mp mentions
    | true => exact mentions
  evaluatesTo evaluated := by
    obtain ⟨first, second, literal, operandValue, rfl⟩ :=
      (evaluatesTo_equivalence_iff ..).mp evaluated
    obtain rfl := Value.bool.inj ((evaluatesTo_bool_iff ..).mp literal)
    cases first with
    | false =>
        refine (mkNot_evaluatesTo_iff ..).mpr ?_
        cases second <;> exact operandValue
    | true => cases second <;> exact operandValue

theorem preserves_mkIff (left right : Formula) :
    Preserves (mkIff left right) (.binary .iff left right) := by
  unfold mkIff
  split
  · exact preserves_equivalence_literal true _
  · exact (preserves_equivalence_literal true _).trans (preserves_equivalence_comm ..)
  · exact preserves_equivalence_literal false _
  · exact (preserves_equivalence_literal false _).trans (preserves_equivalence_comm ..)
  · exact .refl _

theorem preserves_mkComparison (op : BinaryOp) (left right : Formula) :
    Preserves (mkComparison op left right) (.binary op left right) := by
  unfold mkComparison
  split
  next first second =>
    split
    next holds compared =>
      refine ⟨fun {sort} typed => ?_, by simp, fun evaluated => ?_⟩
      · obtain ⟨_, _, sorts, -⟩ := (hasSort_binary_iff ..).mp typed
        have boolean : sort = .bool := by
          cases op <;> simp_all [BinaryOp.compareWords?, BinaryOp.Sorts]
        exact boolean ▸ .bool holds
      · have strict : op ≠ .implies := by
          rintro rfl
          cases compared
        obtain ⟨_, _, leftValue, rightValue, applied⟩ :=
          (evaluatesTo_binary_iff strict ..).mp evaluated
        obtain rfl := (evaluatesTo_int_iff ..).mp leftValue
        obtain rfl := (evaluatesTo_int_iff ..).mp rightValue
        rw [evaluatesTo_bool_iff]
        cases op <;> simp_all [BinaryOp.compareWords?, BinaryOp.result?]
    next => exact .refl _
  next => exact .refl _

theorem preserves_mkIte (condition consequent alternative : Formula) :
    Preserves (mkIte condition consequent alternative)
      (.ite condition consequent alternative) := by
  unfold mkIte
  split
  next holds =>
    refine ⟨fun typed => ?_, fun mentions => ?_, fun evaluated => ?_⟩
    · cases typed with
      | ite _ consequentTyped alternativeTyped =>
          cases holds with
          | false => exact alternativeTyped
          | true => exact consequentTyped
    · refine (mentions_ite ..).mpr (.inr ?_)
      cases holds with
      | false => exact .inr mentions
      | true => exact .inl mentions
    · cases evaluated with
      | consequent literal chosen =>
          obtain rfl := Value.bool.inj ((evaluatesTo_bool_iff ..).mp literal)
          exact chosen
      | alternative literal chosen =>
          obtain rfl := Value.bool.inj ((evaluatesTo_bool_iff ..).mp literal)
          exact chosen
  next => exact .refl _

theorem preserves_mkSub (left right : Formula) :
    Preserves (mkSub left right) (.binary .sub left right) := by
  have difference {left right : Formula} {valuation : Valuation} {value : Value}
      (evaluated : (Formula.binary .sub left right).EvaluatesTo valuation value) :
      ∃ first second result, left.EvaluatesTo valuation (.int first) ∧
        right.EvaluatesTo valuation (.int second) ∧ Word.sub? first second = some result ∧
        value = .int result := by
    obtain ⟨first, second, leftValue, rightValue, applied⟩ :=
      (evaluatesTo_binary_iff (by decide) ..).mp evaluated
    cases first <;> cases second <;> simp only [BinaryOp.result?, reduceCtorEq] at applied
    obtain ⟨result, subtracted, rfl⟩ := Option.map_eq_some_iff.mp applied
    exact ⟨_, _, result, leftValue, rightValue, subtracted, rfl⟩
  unfold mkSub
  split
  next first second =>
    split
    next result subtracted =>
      refine ⟨fun typed => ?_, by simp, fun evaluated => ?_⟩
      · obtain ⟨_, _, ⟨rfl, rfl, rfl⟩, -⟩ := (hasSort_binary_iff ..).mp typed
        exact .int result
      · obtain ⟨_, _, other, leftValue, rightValue, subtracted', rfl⟩ := difference evaluated
        obtain rfl := Value.int.inj ((evaluatesTo_int_iff ..).mp leftValue)
        obtain rfl := Value.int.inj ((evaluatesTo_int_iff ..).mp rightValue)
        rw [subtracted] at subtracted'
        exact Option.some.inj subtracted' ▸ .int result
    next => exact .refl _
  next literal =>
    split
    next zero =>
      subst zero
      refine ⟨fun typed => ?_, fun mentions => (mentions_binary ..).mpr (.inl mentions),
        fun evaluated => ?_⟩
      · obtain ⟨_, _, ⟨rfl, rfl, rfl⟩, typed, -⟩ := (hasSort_binary_iff ..).mp typed
        exact typed
      · obtain ⟨first, _, result, leftValue, rightValue, subtracted, rfl⟩ := difference evaluated
        obtain rfl := Value.int.inj ((evaluatesTo_int_iff ..).mp rightValue)
        rw [Word.sub?_zero_right] at subtracted
        exact Option.some.inj subtracted ▸ leftValue
    next => exact .refl _
  next => exact .refl _

private theorem evaluateProduct_of_literals {step : Int64 → Formula → Option Int64}
    (literal : ∀ product operand next, step product operand = some next →
      ∃ value, operand = .int value ∧ Word.mul? product value = some next)
    {start product : Int64} {operands : List Formula}
    (folded : operands.foldlM step start = some product) :
    evaluateProduct valuation start operands = .ok (some product) := by
  induction operands generalizing start with
  | nil => simpa [evaluateProduct] using folded
  | cons head rest induction =>
      rw [List.foldlM_cons, Option.bind_eq_bind, Option.bind_eq_some_iff] at folded
      obtain ⟨next, stepped, folded⟩ := folded
      obtain ⟨value, rfl, multiplied⟩ := literal start head next stepped
      simp [evaluateProduct, evaluate, asInt, multiplied, induction folded]

private theorem evaluatesTo_of_literalProduct? {operands : List Formula} {product : Int64}
    (folded : literalProduct? operands = some product) :
    (Formula.nary .mul operands).EvaluatesTo valuation (.int product) := by
  have multiplied : evaluateProduct valuation 1 operands = .ok (some product) := by
    refine evaluateProduct_of_literals (fun product operand next stepped => ?_) folded
    split at stepped
    next value => exact ⟨value, rfl, stepped⟩
    next => cases stepped
  rw [← evaluate_eq_ok_iff]
  simp [evaluate, multiplied]

theorem preserves_mkMul (operands : List Formula) :
    Preserves (mkMul operands) (.nary .mul operands) := by
  unfold mkMul
  split
  next product folded =>
    refine ⟨fun typed => ?_, by simp, fun evaluated => ?_⟩
    · obtain ⟨rfl, -⟩ := (hasSort_nary_iff ..).mp typed
      exact .int product
    · rw [evaluated.unique (evaluatesTo_of_literalProduct? folded)]
      exact .int product
  next =>
    split
    next operand _ =>
      refine ⟨fun typed => ?_, by simp, fun evaluated => ?_⟩
      · exact ((hasSort_nary_iff ..).mp typed).2 operand List.mem_cons_self
      · cases evaluated with
        | product each combined =>
            have single : _ = some _ := combined
            rw [List.map_singleton, List.foldlM_cons, Word.mul?_one_left] at single
            obtain rfl := Option.some.inj single
            exact each operand List.mem_cons_self
    next => exact .refl _

/-! ## Sums -/

/-- The operands have integer values with this sum. Unlike the value of a sum it
does not depend on the order of the operands. -/
inductive SumsTo (valuation : Valuation) : List Formula → Int → Prop where
  | nil : SumsTo valuation [] 0
  | cons {operand : Formula} {operands : List Formula} {value : Int64} {total : Int} :
      operand.EvaluatesTo valuation (.int value) → SumsTo valuation operands total →
      SumsTo valuation (operand :: operands) (value.toInt + total)

theorem sumsTo_append {first second : List Formula} {left right : Int}
    (before : SumsTo valuation first left) (after : SumsTo valuation second right) :
    SumsTo valuation (first ++ second) (left + right) := by
  induction before with
  | nil => simpa using after
  | cons evaluated _ induction =>
      rw [Int.add_assoc]
      exact .cons evaluated induction

theorem sumsTo_singleton_iff (operand : Formula) (total : Int) :
    SumsTo valuation [operand] total ↔
      ∃ value, operand.EvaluatesTo valuation (.int value) ∧ value.toInt = total := by
  constructor
  · intro sums
    cases sums with
    | cons evaluated rest =>
        cases rest with
        | nil => exact ⟨_, evaluated, by simp⟩
  · rintro ⟨value, evaluated, rfl⟩
    simpa using SumsTo.cons evaluated .nil

private theorem sumsTo_of_evaluateSum {start total : Int64} {operands : List Formula}
    (evaluated : evaluateSum valuation start operands = .ok (some total)) :
    SumsTo valuation operands (total.toInt - start.toInt) := by
  induction operands generalizing start with
  | nil =>
      simp only [evaluateSum, Outcome.pure_eq_ok_iff, Option.some.injEq] at evaluated
      rw [evaluated, Int.sub_self]
      exact .nil
  | cons head rest induction =>
      simp only [evaluateSum, Outcome.bind_eq_ok_iff, asInt_eq_ok_iff] at evaluated
      obtain ⟨value, headValue, continued⟩ := evaluated
      cases added : Word.add? start value with
      | none => simp [added] at continued
      | some next =>
          rw [added] at continued
          have exact : next.toInt = start.toInt + value.toInt :=
            (Word.ofInt?_eq_some_iff ..).mp added
          have split : total.toInt - start.toInt = value.toInt + (total.toInt - next.toInt) := by
            omega
          rw [split]
          exact .cons ((evaluate_eq_ok_iff ..).mp headValue) (induction continued)

private theorem evaluateSum_of_sumsTo {operands : List Formula} {sum : Int}
    (sums : SumsTo valuation operands sum) (start : Int64) :
    (∃ total, evaluateSum valuation start operands = .ok (some total) ∧
      total.toInt = start.toInt + sum) ∨
      evaluateSum valuation start operands = .ok none := by
  induction sums generalizing start with
  | nil => exact .inl ⟨start, rfl, by simp⟩
  | @cons operand operands value sum evaluated _ induction =>
      have read : asInt operand (operand.evaluate valuation) = .ok value := by
        rwa [asInt_eq_ok_iff, evaluate_eq_ok_iff]
      rw [evaluateSum, read, Outcome.ok_bind]
      cases added : Word.add? start value with
      | none => exact .inr rfl
      | some next =>
          have exact : next.toInt = start.toInt + value.toInt :=
            (Word.ofInt?_eq_some_iff ..).mp added
          rw [← Int.add_assoc, ← exact]
          exact induction next

theorem sumsTo_of_evaluatesTo {operands : List Formula} {value : Value}
    (evaluated : (Formula.nary .add operands).EvaluatesTo valuation value) :
    ∃ total, value = .int total ∧ SumsTo valuation operands total.toInt := by
  rw [← evaluate_eq_ok_iff] at evaluated
  simp only [evaluate, Outcome.bind_eq_ok_iff, inRange_eq_ok_iff, Option.map_eq_some_iff]
    at evaluated
  obtain ⟨_, evaluated, total, rfl, rfl⟩ := evaluated
  exact ⟨total, rfl, by simpa using sumsTo_of_evaluateSum evaluated⟩

theorem evaluate_of_sumsTo {operands : List Formula} {total : Int64}
    (sums : SumsTo valuation operands total.toInt) :
    (Formula.nary .add operands).evaluate valuation = .ok (.int total) ∨
      (Formula.nary .add operands).evaluate valuation =
        .error (.overflow (.nary .add operands)) := by
  rcases evaluateSum_of_sumsTo sums 0 with ⟨found, evaluated, exact⟩ | outside
  · obtain rfl : found = total := Int64.toInt_inj.mp (by simpa using exact)
    exact .inl (by simp [evaluate, evaluated])
  · refine .inr ?_
    rw [evaluate, outside]
    rfl

theorem sumsTo_gather {operands : List Formula} {sum : Int}
    (sums : SumsTo valuation operands sum) (total : Int64) :
    SumsTo valuation (gather total operands).1
      (sum + total.toInt - (gather total operands).2.toInt) := by
  -- Every operand moves its value to the gathered ones or to the total.
  fun_induction gather total operands generalizing sum with
  | case1 total =>
      cases sums with
      | nil => simpa using SumsTo.nil
  | case2 total literal operands next added induction =>
      cases sums with
      | @cons _ _ value later evaluated rest =>
          obtain rfl := Value.int.inj ((evaluatesTo_int_iff ..).mp evaluated)
          have exact : next.toInt = total.toInt + value.toInt :=
            (Word.ofInt?_eq_some_iff ..).mp added
          have moved : value.toInt + later + total.toInt = later + next.toInt := by omega
          rw [moved]
          exact induction rest
  | case3 total literal operands refused rest kept gathered induction =>
      cases sums with
      | cons evaluated later =>
          rw [gathered] at induction
          rw [Int.add_assoc, Int.add_sub_assoc]
          exact .cons evaluated (induction later)
  | case4 total nested operands rest kept gathered induction =>
      cases sums with
      | cons evaluated later =>
          rw [gathered] at induction
          obtain ⟨inner, equal, sums⟩ := sumsTo_of_evaluatesTo evaluated
          obtain rfl := Value.int.inj equal
          rw [Int.add_assoc, Int.add_sub_assoc]
          exact sumsTo_append sums (induction later)
  | case5 total operand operands noLiteral noSum rest kept gathered induction =>
      cases sums with
      | cons evaluated later =>
          rw [gathered] at induction
          rw [Int.add_assoc, Int.add_sub_assoc]
          exact .cons evaluated (induction later)

theorem mem_of_mem_gather {operands : List Formula} {total : Int64} {part : Formula}
    (member : part ∈ (gather total operands).1) :
    part ∈ operands ∨ ∃ nested, .nary .add nested ∈ operands ∧ part ∈ nested := by
  have lift {head : Formula} {rest : List Formula}
      (found : part ∈ rest ∨ ∃ nested, .nary .add nested ∈ rest ∧ part ∈ nested) :
      part ∈ head :: rest ∨ ∃ nested, .nary .add nested ∈ head :: rest ∧ part ∈ nested := by
    refine found.imp (List.mem_cons_of_mem head) ?_
    rintro ⟨nested, inRest, inNested⟩
    exact ⟨nested, List.mem_cons_of_mem head inRest, inNested⟩
  fun_induction gather total operands with
  | case1 => cases member
  | case2 total literal operands next added induction => exact lift (induction member)
  | case3 total literal operands refused rest kept gathered induction =>
      rw [gathered] at induction
      rcases List.mem_cons.mp member with rfl | later
      · exact .inl List.mem_cons_self
      · exact lift (induction later)
  | case4 total nested operands rest kept gathered induction =>
      rw [gathered] at induction
      rcases List.mem_append.mp member with inNested | later
      · exact .inr ⟨nested, List.mem_cons_self, inNested⟩
      · exact lift (induction later)
  | case5 total operand operands noLiteral noSum rest kept gathered induction =>
      rw [gathered] at induction
      rcases List.mem_cons.mp member with rfl | later
      · exact .inl List.mem_cons_self
      · exact lift (induction later)

def summands (operands : List Formula) : List Formula :=
  let gathered := gather 0 operands
  if gathered.2 ≠ 0 ∨ gathered.1.isEmpty then gathered.1 ++ [.int gathered.2] else gathered.1

theorem mkAdd_eq (operands : List Formula) :
    summands operands = [mkAdd operands] ∨ mkAdd operands = .nary .add (summands operands) := by
  simp only [mkAdd]
  split
  next operand single => exact .inl single
  next => exact .inr rfl

theorem mem_of_mem_summands {operands : List Formula} {part : Formula}
    (member : part ∈ summands operands) :
    (∃ value, part = .int value) ∨ part ∈ operands ∨
      ∃ nested, .nary .add nested ∈ operands ∧ part ∈ nested := by
  rw [summands] at member
  split at member
  · rcases List.mem_append.mp member with gathered | literal
    · exact .inr (mem_of_mem_gather gathered)
    · exact .inl ⟨_, List.mem_singleton.mp literal⟩
  · exact .inr (mem_of_mem_gather member)

theorem sumsTo_summands {operands : List Formula} {sum : Int}
    (sums : SumsTo valuation operands sum) : SumsTo valuation (summands operands) sum := by
  have gathered := sumsTo_gather sums 0
  rw [summands]
  split
  · have literal : SumsTo valuation [.int (gather 0 operands).2] (gather 0 operands).2.toInt :=
      (sumsTo_singleton_iff ..).mpr ⟨_, .int _, rfl⟩
    simpa using sumsTo_append gathered literal
  next neutral =>
    simp only [ne_eq, not_or, Decidable.not_not] at neutral
    simpa [neutral.1] using gathered

theorem HasSort.mkAdd {operands : List Formula}
    (each : ∀ operand ∈ operands, operand.HasSort .int) :
    (Formula.mkAdd operands).HasSort .int := by
  have parts : ∀ part ∈ summands operands, part.HasSort .int := by
    intro part member
    rcases mem_of_mem_summands member with ⟨value, rfl⟩ | inOperands | ⟨nested, inOperands, inside⟩
    · exact .int value
    · exact each part inOperands
    · exact ((hasSort_nary_iff ..).mp (each _ inOperands)).2 part inside
  rcases mkAdd_eq operands with single | built
  · exact parts _ (single ▸ List.mem_singleton_self _)
  · exact built ▸ .nary parts

theorem mentions_of_mkAdd {operands : List Formula} {symbol : Symbol}
    (mentions : (mkAdd operands).Mentions symbol) :
    ∃ operand ∈ operands, operand.Mentions symbol := by
  have part : ∃ part ∈ summands operands, part.Mentions symbol := by
    rcases mkAdd_eq operands with single | built
    · exact ⟨_, single ▸ List.mem_singleton_self _, mentions⟩
    · simpa [built] using mentions
  obtain ⟨part, member, mentions⟩ := part
  rcases mem_of_mem_summands member with ⟨value, rfl⟩ | inOperands | ⟨nested, inOperands, inside⟩
  · simp at mentions
  · exact ⟨part, inOperands, mentions⟩
  · exact ⟨_, inOperands, (mentions_nary ..).mpr ⟨part, inside, mentions⟩⟩

/-- The sum that is built is exact where the given one is, or it overflows. -/
theorem evaluate_mkAdd {operands : List Formula} {value : Value}
    (evaluated : (Formula.nary .add operands).EvaluatesTo valuation value) :
    (mkAdd operands).evaluate valuation = .ok value ∨
      (mkAdd operands).evaluate valuation = .error (.overflow (mkAdd operands)) := by
  obtain ⟨total, rfl, sums⟩ := sumsTo_of_evaluatesTo evaluated
  have sums := sumsTo_summands sums
  rcases mkAdd_eq operands with single | built
  · rw [single, sumsTo_singleton_iff] at sums
    obtain ⟨found, operandValue, equal⟩ := sums
    obtain rfl := Int64.toInt_inj.mp equal
    exact .inl ((evaluate_eq_ok_iff ..).mpr operandValue)
  · rw [built]
    exact evaluate_of_sumsTo sums

/-! ## All builders -/

theorem rebuild_cases (formula : Formula) :
    (∃ operands, formula = .nary .add operands) ∨ Preserves formula.rebuild formula := by
  cases formula with
  | bool | int | symbol => exact .inr (.refl _)
  | unary op operand =>
      cases op with
      | prime => exact .inr (.refl _)
      | not => exact .inr (preserves_mkNot operand)
      | neg => exact .inr (preserves_mkNeg operand)
  | binary op left right =>
      cases op with
      | implies => exact .inr (preserves_mkImplies left right)
      | iff => exact .inr (preserves_mkIff left right)
      | eq => exact .inr (preserves_mkComparison .eq left right)
      | neq => exact .inr (preserves_mkComparison .neq left right)
      | lt => exact .inr (preserves_mkComparison .lt left right)
      | leq => exact .inr (preserves_mkComparison .leq left right)
      | gt => exact .inr (preserves_mkComparison .gt left right)
      | geq => exact .inr (preserves_mkComparison .geq left right)
      | sub => exact .inr (preserves_mkSub left right)
      | div | mod => exact .inr (.refl _)
  | nary op operands =>
      cases op with
      | and => exact .inr (preserves_junction (.inl ⟨rfl, rfl⟩) operands)
      | or => exact .inr (preserves_junction (.inr ⟨rfl, rfl⟩) operands)
      | add => exact .inl ⟨operands, rfl⟩
      | mul => exact .inr (preserves_mkMul operands)
  | ite condition consequent alternative =>
      exact .inr (preserves_mkIte condition consequent alternative)

/-- Whatever the operator, what its builder makes of the operands has the sort of
the plain node, mentions no symbol that the operands do not, and has the same
value if both have one. Unless the operator is the sum, it has a value wherever
the plain node has one. -/
theorem rebuild_keeps_meaning (formula : Formula) :
    (∀ sort, formula.inferSort = .ok sort → formula.rebuild.inferSort = .ok sort) ∧
    (∀ symbol, formula.rebuild.Mentions symbol → formula.Mentions symbol) ∧
    (∀ valuation value built, formula.evaluate valuation = .ok value →
      formula.rebuild.evaluate valuation = .ok built → value = built) ∧
    ((∀ operands, formula ≠ .nary .add operands) → ∀ valuation value,
      formula.evaluate valuation = .ok value → formula.rebuild.evaluate valuation = .ok value) := by
  simp only [inferSort_eq_ok_iff, evaluate_eq_ok_iff]
  rcases rebuild_cases formula with ⟨operands, rfl⟩ | kept
  · refine ⟨fun sort typed => ?_, fun symbol mentions => ?_, ?_, fun notSum => ?_⟩
    · obtain ⟨rfl, each⟩ := (hasSort_nary_iff ..).mp typed
      exact .mkAdd each
    · exact (mentions_nary ..).mpr (mentions_of_mkAdd mentions)
    · intro valuation value built evaluated rebuilt
      rw [← evaluate_eq_ok_iff] at rebuilt
      rcases evaluate_mkAdd evaluated with same | overflow
      · exact Except.ok.inj (same.symm.trans rebuilt)
      · cases overflow.symm.trans rebuilt
    · exact absurd rfl (notSum operands)
  · refine ⟨fun sort => kept.hasSort, fun symbol => kept.mentions, ?_,
      fun _ valuation value => kept.evaluatesTo⟩
    intro valuation value built evaluated rebuilt
    exact (kept.evaluatesTo evaluated).unique rebuilt

/-- A literal that moves to the end of a sum can make it overflow. -/
example :
    let operands := [.int (-1), .nary .add [.int Int64.maxValue], .nary .add [.int 1]]
    (Formula.nary .add operands).evaluate ∅ = .ok (.int Int64.maxValue) ∧
      (mkAdd operands).evaluate ∅ = .error (.overflow (mkAdd operands)) :=
  ⟨rfl, rfl⟩

end Formula

end SymbolicSafety
