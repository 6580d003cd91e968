import SymbolicSafety.Formula.Typing
import SymbolicSafety.Proofs.Occurrence

namespace SymbolicSafety

/-! The sorts of formulas as a relation. Inference finds a sort exactly when
the relation gives one, so proofs about well-sorted formulas go by induction on
the relation. -/

/-! ## Outcomes -/

namespace Outcome

@[simp] theorem bind_eq_ok_iff {ε α β : Type} (outcome : Except ε α)
    (next : α → Except ε β) (result : β) :
    (outcome >>= next) = .ok result ↔ ∃ value, outcome = .ok value ∧ next value = .ok result := by
  cases outcome <;> simp [bind, Except.bind]

theorem bind_eq_error_iff {ε α β : Type} (outcome : Except ε α) (next : α → Except ε β)
    (error : ε) : (outcome >>= next) = .error error ↔
      outcome = .error error ∨ ∃ value, outcome = .ok value ∧ next value = .error error := by
  cases outcome <;> simp [bind, Except.bind]

@[simp] theorem map_eq_ok_iff {ε α β : Type} (outcome : Except ε α) (change : α → β)
    (result : β) : (change <$> outcome) = .ok result ↔
      ∃ value, outcome = .ok value ∧ change value = result := by
  cases outcome <;> simp [Functor.map, Except.map]

theorem ok_bind {ε α β : Type} (value : α) (next : α → Except ε β) :
    (.ok value >>= next) = next value :=
  rfl

theorem mapError_ok {ε ε' α : Type} (change : ε → ε') (value : α) :
    (.ok value : Except ε α).mapError change = .ok value :=
  rfl

theorem mapError_error {ε ε' α : Type} (change : ε → ε') (error : ε) :
    (.error error : Except ε α).mapError change = .error (change error) :=
  rfl

theorem mapError_bind {ε ε' α β : Type} (change : ε → ε') (outcome : Except ε α)
    (next : α → Except ε β) : (outcome >>= next).mapError change =
      outcome.mapError change >>= fun value => (next value).mapError change := by
  cases outcome <;> rfl

@[simp] theorem mapError_eq_ok_iff {ε ε' α : Type} (outcome : Except ε α) (change : ε → ε')
    (value : α) : outcome.mapError change = .ok value ↔ outcome = .ok value := by
  cases outcome with
  | error error =>
      change Except.error (change error) = .ok value ↔ Except.error error = .ok value
      simp
  | ok held =>
      change Except.ok held = .ok value ↔ Except.ok held = .ok value
      simp

theorem toOption_eq_some_iff {ε α : Type} {outcome : Except ε α} {result : α} :
    outcome.toOption = some result ↔ outcome = .ok result := by
  cases outcome <;> simp [Except.toOption]

theorem any_toOption_iff {ε α : Type} {outcome : Except ε α} {test : α → Bool} :
    outcome.toOption.any test = true ↔ ∃ result, outcome = .ok result ∧ test result = true := by
  simp only [Option.any_eq_true, toOption_eq_some_iff]

theorem exists_pair_of_any {ε α β : Type} [DecidableEq α] {outcome : Except ε (α × β)} {first : α}
    {test : β → Bool}
    (found : (outcome.toOption.any fun pair => decide (pair.1 = first) && test pair.2) = true) :
    ∃ second, outcome = .ok (first, second) ∧ test second = true := by
  obtain ⟨⟨shown, second⟩, computed, passed⟩ := any_toOption_iff.mp found
  obtain ⟨same, passes⟩ := Bool.and_eq_true_iff.mp passed
  obtain rfl : shown = first := of_decide_eq_true same
  exact ⟨second, computed, passes⟩

@[simp] theorem pure_eq_ok_iff {ε α : Type} (value result : α) :
    (pure value : Except ε α) = .ok result ↔ value = result := by
  simp [pure, Except.pure]

@[simp] theorem throw_ne_ok {ε α : Type} (error : ε) (result : α) :
    (throw error : Except ε α) ≠ .ok result := by
  simp [throw, throwThe, MonadExceptOf.throw]

end Outcome

def BinaryOp.Sorts : BinaryOp → ValueSort → ValueSort → ValueSort → Prop
  | .implies, left, right, result | .iff, left, right, result =>
      left = .bool ∧ right = .bool ∧ result = .bool
  | .eq, left, right, result | .neq, left, right, result => left = right ∧ result = .bool
  | .lt, left, right, result | .leq, left, right, result | .gt, left, right, result
  | .geq, left, right, result => left = .int ∧ right = .int ∧ result = .bool
  | .sub, left, right, result | .div, left, right, result | .mod, left, right, result =>
      left = .int ∧ right = .int ∧ result = .int

theorem BinaryOp.Sorts.same {op : BinaryOp} {left right sort : ValueSort}
    (sorts : op.Sorts left right sort) : left = right := by
  cases op <;> simp_all [BinaryOp.Sorts]

namespace Formula

inductive HasSort : Formula → ValueSort → Prop where
  | bool (value : Bool) : HasSort (.bool value) .bool
  | int (value : Int64) : HasSort (.int value) .int
  | symbol (name : Symbol) : HasSort (.symbol name) name.domain.sort
  | prime {operand : Formula} {sort : ValueSort} :
      HasSort operand sort → HasSort (.unary .prime operand) sort
  | not {operand : Formula} : HasSort operand .bool → HasSort (.unary .not operand) .bool
  | neg {operand : Formula} : HasSort operand .int → HasSort (.unary .neg operand) .int
  | binary {op : BinaryOp} {left right : Formula} {first second sort : ValueSort} :
      op.Sorts first second sort → HasSort left first → HasSort right second →
      HasSort (.binary op left right) sort
  | nary {op : NaryOp} {operands : List Formula} :
      (∀ operand ∈ operands, HasSort operand op.sort) → HasSort (.nary op operands) op.sort
  | ite {condition consequent alternative : Formula} {sort : ValueSort} :
      HasSort condition .bool → HasSort consequent sort → HasSort alternative sort →
      HasSort (.ite condition consequent alternative) sort

@[simp] theorem hasSort_symbol_iff (name : Symbol) (sort : ValueSort) :
    (Formula.symbol name).HasSort sort ↔ name.domain.sort = sort :=
  ⟨fun typed => by cases typed; rfl, fun equal => equal ▸ .symbol name⟩

@[simp] theorem hasSort_nary_iff (op : NaryOp) (operands : List Formula) (sort : ValueSort) :
    (Formula.nary op operands).HasSort sort ↔
      op.sort = sort ∧ ∀ operand ∈ operands, operand.HasSort sort := by
  constructor
  · intro typed
    cases typed with
    | nary each => exact ⟨rfl, each⟩
  · rintro ⟨rfl, each⟩
    exact .nary each

def IsBoolean (formula : Formula) : Prop := formula.inferSort = .ok .bool

theorem demand_eq_ok_iff (operand : Formula) (expected : ValueSort)
    (inferred : Except SortMismatch ValueSort) (done : Unit) :
    demand operand expected inferred = .ok done ↔ inferred = .ok expected := by
  cases inferred with
  | error fault => simp [demand, bind, Except.bind]
  | ok found => by_cases equal : found = expected <;> simp [demand, equal]

theorem demandAll_eq_ok_iff (expected : ValueSort) (operands : List Formula) (done : Unit) :
    demandAll expected operands = .ok done ↔
      ∀ operand ∈ operands, operand.inferSort = .ok expected := by
  induction operands with
  | nil => simp [demandAll]
  | cons head rest induction => simp [demandAll, demand_eq_ok_iff, induction]

private theorem inferSort_binary_eq_ok_iff (op : BinaryOp) (left right : Formula)
    (sort : ValueSort) :
    (Formula.binary op left right).inferSort = .ok sort ↔
      ∃ first second, op.Sorts first second sort ∧ left.inferSort = .ok first ∧
        right.inferSort = .ok second := by
  cases op <;> simp [inferSort, demand_eq_ok_iff, BinaryOp.Sorts, eq_comm (a := sort)] <;> grind

/-- Inference decides the relation. -/
theorem inferSort_eq_ok_iff (formula : Formula) (sort : ValueSort) :
    formula.inferSort = .ok sort ↔ formula.HasSort sort := by
  induction formula generalizing sort with
  | bool value =>
      rw [inferSort, Outcome.pure_eq_ok_iff]
      exact ⟨fun equal => equal ▸ .bool value, fun typed => by cases typed; rfl⟩
  | int value =>
      rw [inferSort, Outcome.pure_eq_ok_iff]
      exact ⟨fun equal => equal ▸ .int value, fun typed => by cases typed; rfl⟩
  | symbol name =>
      rw [inferSort, Outcome.pure_eq_ok_iff]
      exact ⟨fun equal => equal ▸ .symbol name, fun typed => by cases typed; rfl⟩
  | unary op operand operandCase =>
      cases op with
      | prime =>
          rw [inferSort, operandCase]
          exact ⟨.prime, fun typed => by cases typed; assumption⟩
      | not =>
          simp only [inferSort, Outcome.bind_eq_ok_iff, demand_eq_ok_iff, operandCase,
            Outcome.pure_eq_ok_iff]
          exact ⟨fun ⟨_, typed, equal⟩ => equal ▸ .not typed,
            fun typed => by cases typed; exact ⟨(), by assumption, rfl⟩⟩
      | neg =>
          simp only [inferSort, Outcome.bind_eq_ok_iff, demand_eq_ok_iff, operandCase,
            Outcome.pure_eq_ok_iff]
          exact ⟨fun ⟨_, typed, equal⟩ => equal ▸ .neg typed,
            fun typed => by cases typed; exact ⟨(), by assumption, rfl⟩⟩
  | binary op left right leftCase rightCase =>
      rw [inferSort_binary_eq_ok_iff]
      simp only [leftCase, rightCase]
      constructor
      · rintro ⟨first, second, sorts, leftTyped, rightTyped⟩
        exact .binary sorts leftTyped rightTyped
      · intro typed
        cases typed with
        | binary sorts leftTyped rightTyped => exact ⟨_, _, sorts, leftTyped, rightTyped⟩
  | nary op operands operandCases =>
      simp only [inferSort, Outcome.bind_eq_ok_iff, demandAll_eq_ok_iff, Outcome.pure_eq_ok_iff]
      constructor
      · rintro ⟨-, each, rfl⟩
        exact .nary fun operand member => (operandCases operand member _).mp (each operand member)
      · intro typed
        cases typed with
        | nary each =>
            exact ⟨(), fun operand member =>
              (operandCases operand member _).mpr (each operand member), rfl⟩
  | ite condition consequent alternative conditionCase consequentCase alternativeCase =>
      simp only [inferSort, Outcome.bind_eq_ok_iff, demand_eq_ok_iff, conditionCase,
        consequentCase, alternativeCase, Outcome.pure_eq_ok_iff]
      constructor
      · rintro ⟨-, conditionTyped, _, consequentTyped, -, alternativeTyped, rfl⟩
        exact .ite conditionTyped consequentTyped alternativeTyped
      · intro typed
        cases typed with
        | ite conditionTyped consequentTyped alternativeTyped =>
            exact ⟨(), conditionTyped, _, consequentTyped, (), alternativeTyped, rfl⟩

end Formula

end SymbolicSafety
