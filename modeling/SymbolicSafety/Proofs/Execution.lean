import SymbolicSafety.Proofs.Actions

namespace SymbolicSafety

/-! Executions of statements. A statement takes a store to any of the stores
that its choices allow, and blocks where a value leaves its domain or an
assumption fails. It reads and writes no variables but its own. -/

abbrev Store := Variable → Value

namespace Store

def assignment (store : Store) : Assignment := fun symbol => store symbol.var

def set (store : Store) (var : Variable) (value : Value) : Store :=
  fun other => if other = var then value else store other

@[simp] theorem set_self (store : Store) (var : Variable) (value : Value) :
    store.set var value var = value := if_pos rfl

theorem set_other (store : Store) {var other : Variable} (value : Value) (different : other ≠ var) :
    store.set var value other = store other := if_neg different

theorem set_frame {own : Variable → Prop} {store other : Store} {var : Variable}
    (same : ∀ var, own var → other var = store var) (ownVar : own var) (value : Value) :
    (∀ name, own name → other.set var value name = store.set var value name) ∧
      ∀ name, ¬ own name → other.set var value name = other name := by
  constructor
  · intro name inside
    simp only [set]
    split
    · rfl
    · exact same name inside
  · intro name outside
    exact other.set_other value fun equal => outside (equal ▸ ownVar)

end Store

namespace Statement

/-- The store before a statement and one that it may leave behind. -/
inductive Executes : Statement → Store → Store → Prop where
  | skip (store : Store) : Executes .skip store store
  | assign {var : Variable} {formula : Formula} {store : Store} {value : Value} :
      formula.HasValue store.assignment value → var.domain.contains value = true →
      Executes (.assign var formula) store (store.set var value)
  | assume {condition : Formula} {store : Store} :
      condition.Holds store.assignment → Executes (.assume condition) store store
  | havoc {var : Variable} {value : Value} (store : Store) :
      var.domain.contains value = true → Executes (.havoc var) store (store.set var value)
  | done (store : Store) : Executes (.sequence []) store store
  | next {step : Statement} {rest : List Statement} {before middle after : Store} :
      Executes step before middle → Executes (.sequence rest) middle after →
      Executes (.sequence (step :: rest)) before after
  | idle (store : Store) : Executes (.choice []) store store
  | branch {branch : Statement} {branches : List Statement} {before after : Store} :
      branch ∈ branches → Executes branch before after → Executes (.choice branches) before after

/-- No values of the domains make an integer operation of the statement leave
its range. -/
inductive StaysInRange : Statement → Prop where
  | skip : StaysInRange .skip
  | assign {formula : Formula} (var : Variable) :
      formula.StaysInRange → StaysInRange (.assign var formula)
  | assume {condition : Formula} :
      condition.StaysInRange → StaysInRange (.assume condition)
  | havoc (var : Variable) : StaysInRange (.havoc var)
  | sequence {steps : List Statement} :
      (∀ step ∈ steps, StaysInRange step) → StaysInRange (.sequence steps)
  | choice {branches : List Statement} :
      (∀ branch ∈ branches, StaysInRange branch) → StaysInRange (.choice branches)

/-! ## The variables of a statement -/

def Concerns (statement : Statement) (var : Variable) : Prop := var ∈ statement.vars.keys

theorem concerns_assign_iff (var other : Variable) (formula : Formula) :
    (Statement.assign var formula).Concerns other ↔
      other = var ∨ ∃ symbol, formula.Mentions symbol ∧ symbol.var = other := by
  simp [Concerns, vars, Formula.mem_vars_iff]

theorem concerns_assume_iff (condition : Formula) (other : Variable) :
    (Statement.assume condition).Concerns other ↔
      ∃ symbol, condition.Mentions symbol ∧ symbol.var = other := by
  simp [Concerns, vars, Formula.mem_vars_iff]

theorem concerns_havoc_iff (var other : Variable) :
    (Statement.havoc var).Concerns other ↔ other = var := by
  simp [Concerns, vars]

private theorem mem_varsOfAll (statements : List Statement) (var : Variable) :
    var ∈ (varsOfAll statements).keys ↔ ∃ statement ∈ statements, statement.Concerns var := by
  induction statements with
  | nil => simp [varsOfAll]
  | cons head rest induction => simp [varsOfAll, induction, Concerns]

theorem concerns_sequence_iff (steps : List Statement) (var : Variable) :
    (Statement.sequence steps).Concerns var ↔ ∃ step ∈ steps, step.Concerns var :=
  mem_varsOfAll steps var

theorem concerns_next_iff (step : Statement) (rest : List Statement) (var : Variable) :
    (Statement.sequence (step :: rest)).Concerns var ↔
      step.Concerns var ∨ (Statement.sequence rest).Concerns var := by
  simp only [concerns_sequence_iff, List.mem_cons, or_and_right, exists_or, exists_eq_left]

theorem concerns_choice_iff (branches : List Statement) (var : Variable) :
    (Statement.choice branches).Concerns var ↔ ∃ branch ∈ branches, branch.Concerns var :=
  mem_varsOfAll branches var

/-- What a statement does to its own variables does not depend on the others,
and these keep their values. -/
theorem Executes.frame {statement : Statement} {before after other : Store}
    (executes : statement.Executes before after) {own : Variable → Prop}
    (concerned : ∀ var, statement.Concerns var → own var)
    (same : ∀ var, own var → other var = before var) :
    ∃ result, statement.Executes other result ∧ (∀ var, own var → result var = after var) ∧
      ∀ var, ¬ own var → result var = other var := by
  induction executes generalizing other with
  | skip store => exact ⟨other, .skip other, same, fun _ _ => rfl⟩
  | @assign var formula store value evaluated inDomain =>
      have agree : ∀ symbol, formula.Mentions symbol →
          other.assignment symbol = store.assignment symbol := fun symbol mentions =>
        same symbol.var (concerned _
          ((concerns_assign_iff ..).mpr (.inr ⟨symbol, mentions, rfl⟩)))
      have ownVar := concerned var ((concerns_assign_iff ..).mpr (.inl rfl))
      exact ⟨other.set var value, .assign ((Formula.hasValue_congr agree).mpr evaluated) inDomain,
        Store.set_frame same ownVar value⟩
  | @assume condition store holds =>
      have agree : ∀ symbol, condition.Mentions symbol →
          other.assignment symbol = store.assignment symbol := fun symbol mentions =>
        same symbol.var (concerned _ ((concerns_assume_iff ..).mpr ⟨symbol, mentions, rfl⟩))
      exact ⟨other, .assume ((Formula.hasTruth_congr agree).mpr holds), same, fun _ _ => rfl⟩
  | @havoc var value store inDomain =>
      have ownVar := concerned var ((concerns_havoc_iff ..).mpr rfl)
      exact ⟨other.set var value, .havoc other inDomain, Store.set_frame same ownVar value⟩
  | done store => exact ⟨other, .done other, same, fun _ _ => rfl⟩
  | @next step rest before middle after _ _ stepCase restCase =>
      have ofStep : ∀ var, step.Concerns var → own var := fun var concerns =>
        concerned var ((concerns_next_iff ..).mpr (.inl concerns))
      have ofRest : ∀ var, (Statement.sequence rest).Concerns var → own var := fun var concerns =>
        concerned var ((concerns_next_iff ..).mpr (.inr concerns))
      obtain ⟨between, first, inside, outside⟩ := stepCase ofStep same
      obtain ⟨result, second, inside', outside'⟩ := restCase ofRest inside
      exact ⟨result, .next first second, inside', fun var apart =>
        (outside' var apart).trans (outside var apart)⟩
  | idle store => exact ⟨other, .idle other, same, fun _ _ => rfl⟩
  | @branch branch branches before after member _ branchCase =>
      have ofBranch : ∀ var, branch.Concerns var → own var := fun var concerns =>
        concerned var ((concerns_choice_iff ..).mpr ⟨branch, member, concerns⟩)
      obtain ⟨result, executes, inside, outside⟩ := branchCase ofBranch same
      exact ⟨result, .branch member executes, inside, outside⟩

end Statement

end SymbolicSafety
