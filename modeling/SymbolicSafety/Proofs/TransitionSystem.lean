import SymbolicSafety.Checker.Setup
import SymbolicSafety.Proofs.Actions

namespace SymbolicSafety

/-! The transition system that a check is about: its states, its steps and its
runs. A step relates two states when some values for the versions between them
make the action true. -/

namespace Checker

variable {State : Type} (checker : Checker State)

/-- The variables of the system. -/
def Concerns (var : Variable) : Prop :=
  ∃ formula ∈ [checker.initial, checker.action.formula, checker.property],
    ∃ symbol, formula.Mentions symbol ∧ symbol.var = var

/-- A value of its domain for every variable. -/
structure SystemState where
  value : Variable → Value
  inDomain : ∀ var, checker.Concerns var → var.domain.contains (value var) = true

/-- The action is made of well-typed parts, the initial condition is about the
base versions and the property about the current state. All variables have
finite domains that are not empty. -/
structure WellTyped : Prop where
  action : checker.action.WellFormed
  initialBoolean : checker.initial.IsBoolean
  initialVersions : ∀ symbol, checker.initial.Mentions symbol →
    symbol = .version symbol.var (checker.base.get symbol.var)
  propertyBoolean : checker.property.IsBoolean
  propertyPlain : checker.property.Plain
  proper : ∀ var, checker.Concerns var → var.domain.Proper

/-- No values of the domains make an integer operation leave its range. -/
structure WellFormed : Prop extends checker.WellTyped where
  actionInRange : ∀ step, checker.action.formula.unfoldAt? checker.base = some step →
    step.StaysInRange
  initialInRange : checker.initial.StaysInRange
  propertyInRange : checker.property.StaysInRange

variable {checker}

/-! ## States -/

namespace SystemState

/-- The symbols that have a value in a state: the variables, and their versions
at the base indexing. -/
def reads (checker : Checker State) : Symbol → Bool
  | .current _ => true
  | .version var index => index = checker.base.get var

def reading (state : checker.SystemState) (formula : Formula) : Valuation :=
  SortedMap.ofList ((formula.symbols.keys.filter (reads checker)).map fun symbol =>
    (symbol, state.value symbol.var))

/-- The formula is true in the state. -/
def Satisfies (state : checker.SystemState) (formula : Formula) : Prop :=
  formula.evaluate (state.reading formula) = .ok (.bool true)

instance (state : checker.SystemState) (formula : Formula) : Decidable (state.Satisfies formula) :=
  match ended : formula.evaluate (state.reading formula) with
  | .ok (.bool true) => .isTrue ended
  | .ok (.bool false) | .ok (.int _) | .error _ => .isFalse (by simp [Satisfies, ended])

/-- The property is false in the state. -/
def Violates (state : checker.SystemState) : Prop :=
  checker.property.evaluate (state.reading checker.property) = .ok (.bool false)

/-- Some values of the versions make the action true, those before the step
being the values of one state and those after it the values of the other. -/
def Step (before after : checker.SystemState) : Prop :=
  ∃ (reached : Indexing) (step : Formula) (valuation : Valuation),
    checker.base.add? checker.action.delta = some reached ∧
    checker.action.formula.unfoldAt? checker.base = some step ∧
    (∀ var, checker.Concerns var →
      valuation.get? (.version var (checker.base.get var)) = some (before.value var)) ∧
    (∀ var, checker.Concerns var →
      valuation.get? (.version var (reached.get var)) = some (after.value var)) ∧
    valuation.Admits step ∧ step.evaluate valuation = .ok (.bool true)

end SystemState

variable (checker) in
/-- States of which each steps to the next, from the first one on. -/
def IsPath (path : Nat → checker.SystemState) (length : Nat) : Prop :=
  ∀ place < length, (path place).Step (path (place + 1))

variable (checker) in
def IsRun (run : Nat → checker.SystemState) (length : Nat) : Prop :=
  (run 0).Satisfies checker.initial ∧ checker.IsPath run length

/-- Some run ends in the state. -/
def SystemState.Reachable (state : checker.SystemState) : Prop :=
  ∃ run length, checker.IsRun run length ∧ run length = state

theorem SystemState.reachable_of_initial {state : checker.SystemState}
    (satisfies : state.Satisfies checker.initial) : state.Reachable :=
  ⟨fun _ => state, 0, ⟨satisfies, fun _ less => absurd less (Nat.not_lt_zero _)⟩, rfl⟩

theorem SystemState.Reachable.step {state next : checker.SystemState} (reachable : state.Reachable)
    (step : state.Step next) : next.Reachable := by
  obtain ⟨run, length, ⟨starts, isPath⟩, rfl⟩ := reachable
  let extended (place : Nat) : checker.SystemState := if place ≤ length then run place else next
  have early {place : Nat} (le : place ≤ length) : extended place = run place := if_pos le
  have last : extended (length + 1) = next := if_neg (Nat.not_succ_le_self length)
  refine ⟨extended, length + 1, ⟨early (Nat.zero_le _) ▸ starts, fun place less => ?_⟩, last⟩
  rcases Nat.lt_or_eq_of_le (Nat.le_of_lt_succ less) with earlier | rfl
  · rw [early (Nat.le_of_lt earlier), early earlier]
    exact isPath place earlier
  · rw [early (Nat.le_refl _), last]
    exact step

theorem IsPath.cons {path : Nat → checker.SystemState} {length : Nat}
    (isPath : checker.IsPath path length) {state : checker.SystemState}
    (step : state.Step (path 0)) :
    ∃ longer : Nat → checker.SystemState, longer 0 = state ∧
      (∀ place, longer (place + 1) = path place) ∧ checker.IsPath longer (length + 1) := by
  refine ⟨Nat.rec state fun place _ => path place, rfl, fun _ => rfl, fun place less => ?_⟩
  cases place with
  | zero => exact step
  | succ place => exact isPath place (Nat.lt_of_succ_lt_succ less)

theorem exists_path_of_live {inside : checker.SystemState → Prop}
    (closed : ∀ before after, inside before → before.Step after → inside after)
    (live : ∀ state, inside state → ∃ next, state.Step next) (length : Nat)
    {state : checker.SystemState} (starts : inside state) :
    ∃ path : Nat → checker.SystemState, path 0 = state ∧ checker.IsPath path length := by
  induction length generalizing state with
  | zero => exact ⟨fun _ => state, rfl, by simp [IsPath]⟩
  | succ length induction =>
      obtain ⟨next, step⟩ := live state starts
      obtain ⟨path, rfl, isPath⟩ := induction (closed state next starts step)
      obtain ⟨longer, begins, -, isLonger⟩ := isPath.cons step
      exact ⟨longer, begins, isLonger⟩

/-! ## Assignments to versions -/

variable (checker) in
def Legal (assignment : Assignment) : Prop :=
  ∀ symbol : Symbol, checker.Concerns symbol.var →
    symbol.domain.contains (assignment symbol) = true

variable (checker) in
def shift (steps : Nat) : Symbol → Symbol
  | .current var => .current var
  | .version var index =>
      .version var (.ofNat (index.toNat + steps * (checker.action.delta.get var).toNat))

variable (checker) in
def later (assignment : Assignment) (steps : Nat) : Assignment :=
  fun symbol => assignment (checker.shift steps symbol)

variable (checker) in
def Describes (assignment : Assignment) (state : checker.SystemState) : Prop :=
  ∀ var, checker.Concerns var →
    assignment (.version var (checker.base.get var)) = state.value var

theorem shift_var (steps : Nat) (symbol : Symbol) :
    (checker.shift steps symbol).var = symbol.var := by
  cases symbol <;> rfl

theorem Legal.later {assignment : Assignment} (legal : checker.Legal assignment) (steps : Nat) :
    checker.Legal (checker.later assignment steps) := by
  intro symbol concerned
  have same : (checker.shift steps symbol).var = symbol.var := shift_var steps symbol
  have inDomain := legal (checker.shift steps symbol) (same ▸ concerned)
  rwa [Symbol.domain, same] at inDomain

theorem legal_completed (typed : checker.WellTyped) (valuation : Valuation) :
    checker.Legal valuation.completed :=
  fun symbol concerned => Valuation.contains_completed (typed.proper symbol.var concerned)

theorem later_zero (assignment : Assignment) : checker.later assignment 0 = assignment := by
  funext symbol
  cases symbol <;> simp [later, shift]

theorem later_later (assignment : Assignment) (first second : Nat) :
    checker.later (checker.later assignment first) second =
      checker.later assignment (first + second) := by
  funext symbol
  cases symbol with
  | current var => rfl
  | version var index =>
      simp only [later, shift]
      congr 2
      rw [← UInt32.toNat_inj]
      simp only [UInt32.toNat_ofNat', Nat.mod_add_mod, Nat.add_mul]
      congr 1
      omega

variable (checker) in
def delayed (assignment : Assignment) : Assignment
  | .current var => assignment (.current var)
  | .version var index => assignment (.version var (index - checker.action.delta.get var))

theorem Legal.delayed {assignment : Assignment} (legal : checker.Legal assignment) :
    checker.Legal (checker.delayed assignment) := by
  intro symbol concerned
  cases symbol with
  | current var => exact legal (.current var) concerned
  | version var index =>
      exact legal (.version var (index - checker.action.delta.get var)) concerned

theorem later_delayed (assignment : Assignment) (steps : Nat) :
    checker.later (checker.delayed assignment) (steps + 1) = checker.later assignment steps := by
  have undone : checker.later (checker.delayed assignment) 1 = assignment := by
    funext symbol
    cases symbol with
    | current var => rfl
    | version var index =>
        simp only [later, shift, Checker.delayed, Nat.one_mul, UInt32.ofNat_add, UInt32.ofNat_toNat,
          UInt32.add_sub_cancel]
  rw [Nat.add_comm, ← later_later, undone]

variable (checker) in
theorem exists_later_eq (assignment : Assignment) (steps : Nat) :
    ∃ earlier, checker.later earlier steps = assignment := by
  induction steps with
  | zero => exact ⟨assignment, later_zero assignment⟩
  | succ steps induction =>
      obtain ⟨earlier, same⟩ := induction
      exact ⟨checker.delayed earlier, (later_delayed earlier steps).trans same⟩

def Legal.state {assignment : Assignment} (legal : checker.Legal assignment) :
    checker.SystemState where
  value var := assignment (.version var (checker.base.get var))
  inDomain var := legal (.version var (checker.base.get var))

theorem Legal.describes {assignment : Assignment} (legal : checker.Legal assignment) :
    checker.Describes assignment legal.state :=
  fun _ _ => rfl

namespace SystemState

variable {state before after : checker.SystemState} {formula : Formula} {assignment : Assignment}

theorem get?_reading {symbol : Symbol} (mentions : formula.Mentions symbol)
    (bound : reads checker symbol = true) :
    (state.reading formula).get? symbol = some (state.value symbol.var) := by
  rw [reading, SortedMap.get?_ofList_map, if_pos]
  exact List.mem_filter.mpr ⟨(formula.mem_symbols_iff symbol).mpr mentions, bound⟩

theorem evaluate_reading_iff {holds : Bool}
    (bound : ∀ symbol, formula.Mentions symbol → reads checker symbol = true)
    (agree : ∀ symbol, formula.Mentions symbol → assignment symbol = state.value symbol.var) :
    formula.evaluate (state.reading formula) = .ok (.bool holds) ↔
      formula.HasTruth assignment holds := by
  rw [Formula.evaluate_eq_ok_iff]
  refine (Formula.hasTruth_iff fun symbol mentions => ?_).symm
  rw [get?_reading mentions (bound symbol mentions), agree symbol mentions]

theorem reads_property (plain : checker.property.Plain) (symbol : Symbol)
    (mentions : checker.property.Mentions symbol) : reads checker symbol = true := by
  cases symbol with
  | current => rfl
  | version var index => exact absurd mentions (plain.2 var index)

theorem violates_iff (plain : checker.property.Plain)
    (describes : checker.Describes assignment state) :
    state.Violates ↔ checker.property.HasTruth
      (fun symbol => assignment (.version symbol.var (checker.base.get symbol.var))) false :=
  evaluate_reading_iff (reads_property plain) fun symbol mentions =>
    describes _ ⟨_, by simp, symbol, mentions, rfl⟩

theorem Violates.of_agree {other : checker.SystemState} (violates : state.Violates)
    (plain : checker.property.Plain)
    (agree : ∀ symbol, checker.property.Mentions symbol →
      state.value symbol.var = other.value symbol.var) : other.Violates := by
  rw [Violates, evaluate_reading_iff (reads_property plain) fun _ _ => rfl] at violates
  exact (evaluate_reading_iff (reads_property plain) agree).mpr violates

theorem admits_property (state : checker.SystemState) (typed : checker.WellTyped) :
    (state.reading checker.property).Admits checker.property := by
  intro symbol mentions
  exact ⟨state.value symbol.var, get?_reading mentions
    (reads_property typed.propertyPlain symbol mentions),
    state.inDomain symbol.var ⟨_, by simp, symbol, mentions, rfl⟩⟩

/-- The property is true or false in a state, or it overflows there. -/
theorem evaluate_property (state : checker.SystemState) (typed : checker.WellTyped) :
    (∃ holds, checker.property.evaluate (state.reading checker.property) = .ok (.bool holds)) ∨
      ∃ fault, checker.property.evaluate (state.reading checker.property) =
        .error (.overflow fault) :=
  Formula.evaluate_of_isBoolean typed.propertyBoolean typed.propertyPlain.1
    (state.admits_property typed).suits

theorem exists_truth (state : checker.SystemState) (wellFormed : checker.WellFormed) :
    ∃ holds, checker.property.evaluate (state.reading checker.property) = .ok (.bool holds) := by
  have typed := wellFormed.toWellTyped
  refine (state.evaluate_property typed).resolve_right ?_
  rintro ⟨fault, overflow⟩
  exact wellFormed.propertyInRange _ (state.admits_property typed) fault overflow

theorem satisfies_property (wellFormed : checker.WellFormed) (safe : ¬ state.Violates) :
    state.Satisfies checker.property := by
  obtain ⟨holds, evaluated⟩ := state.exists_truth wellFormed
  cases holds with
  | true => exact evaluated
  | false => exact absurd evaluated safe

end SystemState

/-! ## Steps -/

section Steps

variable {reached : Indexing} {step : Formula}

theorem shift_base (advanced : checker.base.add? checker.action.delta = some reached)
    (var : Variable) :
    checker.shift 1 (.version var (checker.base.get var)) = .version var (reached.get var) := by
  rw [shift, Nat.one_mul, ← Indexing.get_add advanced var, UInt32.ofNat_toNat]

theorem mentions_of_step (regular : checker.action.Regular) {indexing : Indexing}
    (unfolded : checker.action.formula.unfoldAt? indexing = some step) {symbol : Symbol}
    (mentions : step.Mentions symbol) :
    checker.Concerns symbol.var ∧ ∃ index, symbol = .version symbol.var index ∧
      (indexing.get symbol.var).toNat ≤ index.toNat ∧
      index.toNat ≤ (indexing.get symbol.var).toNat +
        (checker.action.delta.get symbol.var).toNat := by
  obtain ⟨below, occurs, index, same, number⟩ :=
    (Formula.unfolds_of_unfoldPrimed? unfolded).mentions regular.versionFree mentions
  have reaches := regular.reaches symbol.var below occurs
  exact ⟨⟨_, by simp, _, occurs.mentions, rfl⟩, index, same, by omega, by omega⟩

variable {before after : checker.SystemState}

theorem step_iff (wellFormed : checker.WellFormed)
    (advanced : checker.base.add? checker.action.delta = some reached)
    (unfolded : checker.action.formula.unfoldAt? checker.base = some step) :
    before.Step after ↔ ∃ assignment, checker.Legal assignment ∧
      checker.Describes assignment before ∧ checker.Describes (checker.later assignment 1) after ∧
      step.Holds assignment := by
  constructor
  · rintro ⟨reached', step', valuation, advanced', unfolded', start, finish, admits, holds⟩
    obtain rfl := Option.some.inj (advanced.symm.trans advanced')
    obtain rfl := Option.some.inj (unfolded.symm.trans unfolded')
    refine ⟨valuation.completed, fun symbol concerned => ?_, fun var concerned => ?_,
      fun var concerned => ?_, admits.hasTruth_iff.mpr holds⟩
    · exact Valuation.contains_completed (wellFormed.proper symbol.var concerned)
    · exact Valuation.completed_eq (start var concerned) (before.inDomain var concerned)
    · rw [later, shift_base advanced]
      exact Valuation.completed_eq (finish var concerned) (after.inDomain var concerned)
  · rintro ⟨assignment, legal, start, finish, holds⟩
    -- The valuation binds what the step mentions and both versions of every variable.
    let vars := [checker.initial, checker.action.formula, checker.property].flatMap fun formula =>
      formula.symbols.keys.map Symbol.var
    let ends := vars.flatMap fun var =>
      [Formula.version var (checker.base.get var), Formula.version var (reached.get var)]
    have present {var : Variable} (concerned : checker.Concerns var) : var ∈ vars := by
      obtain ⟨formula, member, symbol, mentions, rfl⟩ := concerned
      exact List.mem_flatMap.mpr ⟨formula, member, List.mem_map.mpr
        ⟨symbol, (formula.mem_symbols_iff symbol).mpr mentions, rfl⟩⟩
    have within : assignment.Within step := fun symbol mentions =>
      legal symbol (mentions_of_step wellFormed.action.regular unfolded mentions).1
    refine ⟨reached, step, assignment.valuation (step :: ends), advanced, unfolded,
      fun var concerned => ?_, fun var concerned => ?_, within.admits List.mem_cons_self, ?_⟩
    · have member : Formula.version var (checker.base.get var) ∈ step :: ends :=
        List.mem_cons_of_mem _ (List.mem_flatMap.mpr ⟨var, present concerned, by simp⟩)
      rw [assignment.get?_valuation member ((Formula.mentions_symbol _ _).mpr rfl),
        start var concerned]
    · have member : Formula.version var (reached.get var) ∈ step :: ends :=
        List.mem_cons_of_mem _ (List.mem_flatMap.mpr ⟨var, present concerned, by simp⟩)
      rw [assignment.get?_valuation member ((Formula.mentions_symbol _ _).mpr rfl),
        ← finish var concerned, later, shift_base advanced]
    · rw [Formula.evaluate_eq_ok_iff]
      exact (Formula.hasTruth_iff fun symbol mentions =>
        assignment.get?_valuation List.mem_cons_self mentions).mp holds

end Steps

end Checker

end SymbolicSafety
