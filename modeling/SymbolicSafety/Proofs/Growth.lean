import SymbolicSafety.Proofs.Images

namespace SymbolicSafety

/-! How often a set of states can grow. Apart from variables that do not matter,
a system has no more states than its symbols have combinations of values. A
growing image takes in some of them each time. -/

namespace Domain

def least : Domain → Int
  | .bool | .int => 0
  | .range least _ => least.toInt

def values (domain : Domain) : List Value :=
  (List.range domain.span).map fun (place : Nat) => domain.valueOf (domain.least + place)

theorem values_ne_nil (domain : Domain) : domain.values ≠ [] := by
  cases domain <;> simp [values, span]

theorem Proper.mem_values {domain : Domain} (proper : domain.Proper) {value : Value}
    (contains : domain.contains value = true) : value ∈ domain.values := by
  cases domain with
  | int => exact absurd proper id
  | bool =>
      cases value with
      | int word => cases contains
      | bool holds => cases holds <;> decide
  | range least greatest =>
      cases value with
      | bool holds => cases contains
      | int word =>
          have inside : least.toInt ≤ word.toInt ∧ word.toInt ≤ greatest.toInt := by
            simpa [Domain.contains, Int64.le_iff_toInt_le] using contains
          have place : least.toInt + (word.toInt - least.toInt).toNat = word.toInt := by omega
          refine List.mem_map.mpr ⟨(word.toInt - least.toInt).toNat, ?_, ?_⟩
          · rw [List.mem_range, span]
            omega
          · rw [Domain.least, place, valueOf, Int64.ofInt_toInt]

end Domain

namespace Checker

variable {State : Type} {checker : Checker State} {trace : Trace}

/-! ## States that are alike -/

namespace SystemState

/-- The states agree where the system is concerned. -/
def Resembles (state other : checker.SystemState) : Prop :=
  ∀ var, checker.Concerns var → state.value var = other.value var

theorem Resembles.symm {state other : checker.SystemState} (resembles : state.Resembles other) :
    other.Resembles state :=
  fun var concerned => (resembles var concerned).symm

def update (state : checker.SystemState) (var : Variable) (value : Value) :
    checker.SystemState where
  value other :=
    if other = var ∧ var.domain.contains value = true then value else state.value other
  inDomain other concerned := by
    split
    next same => exact same.1 ▸ same.2
    next => exact state.inDomain other concerned

theorem update_value_self {state : checker.SystemState} {var : Variable} {value : Value}
    (contains : var.domain.contains value = true) : (state.update var value).value var = value :=
  if_pos ⟨rfl, contains⟩

theorem update_value_other {state : checker.SystemState} {var other : Variable} (value : Value)
    (different : other ≠ var) : (state.update var value).value other = state.value other :=
  if_neg fun both => different both.1

def variants (states : List checker.SystemState) (symbols : List Symbol) :
    List checker.SystemState :=
  symbols.foldl (fun states symbol => states.flatMap fun state =>
    symbol.domain.values.map (state.update symbol.var)) states

theorem length_variants (states : List checker.SystemState) (symbols : List Symbol) :
    (variants states symbols).length =
      symbols.foldl (fun product symbol => product * symbol.domain.span) states.length := by
  induction symbols generalizing states with
  | nil => rfl
  | cons symbol rest induction =>
      have first : (states.flatMap fun state =>
          symbol.domain.values.map (state.update symbol.var)).length =
            states.length * symbol.domain.span := by
        rw [List.length_flatMap]
        simp [Domain.values, List.map_const']
      rw [List.foldl_cons, ← first]
      exact induction _

theorem exists_variant (typed : checker.WellTyped) (state : checker.SystemState)
    {states : List checker.SystemState} {symbols : List Symbol} {listed : checker.SystemState}
    (member : listed ∈ states) :
    ∃ variant ∈ variants states symbols, ∀ var, checker.Concerns var →
      (listed.value var = state.value var ∨ ∃ symbol ∈ symbols, symbol.var = var) →
      variant.value var = state.value var := by
  induction symbols generalizing states listed with
  | nil => exact ⟨listed, member, by simp⟩
  | cons symbol rest induction =>
      obtain ⟨value, inValues, same⟩ : ∃ value ∈ symbol.domain.values,
          checker.Concerns symbol.var → value = state.value symbol.var := by
        by_cases concerned : checker.Concerns symbol.var
        · exact ⟨_, (typed.proper _ concerned).mem_values (state.inDomain _ concerned),
            fun _ => rfl⟩
        · obtain ⟨value, inValues⟩ := List.exists_mem_of_ne_nil _ symbol.domain.values_ne_nil
          exact ⟨value, inValues, fun concerned' => absurd concerned' concerned⟩
      have updated : listed.update symbol.var value ∈ states.flatMap fun state =>
          symbol.domain.values.map (state.update symbol.var) :=
        List.mem_flatMap.mpr ⟨listed, member, List.mem_map_of_mem inValues⟩
      obtain ⟨variant, inVariants, agrees⟩ := induction updated
      refine ⟨variant, inVariants, fun var concerned known => agrees var concerned ?_⟩
      by_cases here : var = symbol.var
      · subst here
        refine .inl ?_
        rw [same concerned, update_value_self (state.inDomain _ concerned)]
      · rw [update_value_other value here]
        rcases known with agreed | ⟨other, inSymbols, rfl⟩
        · exact .inl agreed
        · rcases List.mem_cons.mp inSymbols with rfl | inRest
          · exact absurd rfl here
          · exact .inr ⟨other, inRest, rfl⟩

end SystemState

/-! ## Numbers of states -/

theorem exists_state (typed : checker.WellTyped) : Nonempty checker.SystemState :=
  ⟨⟨fun var => var.domain.someValue, fun var concerned =>
    (typed.proper var concerned).contains_someValue⟩⟩

theorem SystemState.exists_listing (typed : checker.WellTyped) {symbols : List Symbol}
    (covers : ∀ var, checker.Concerns var → ∃ symbol ∈ symbols, symbol.var = var) :
    ∃ states : List checker.SystemState,
      states.length = symbols.foldl (fun product symbol => product * symbol.domain.span) 1 ∧
      ∀ state : checker.SystemState, ∃ listed ∈ states, listed.Resembles state := by
  obtain ⟨start⟩ := exists_state typed
  refine ⟨variants [start] symbols, length_variants [start] symbols, fun state => ?_⟩
  obtain ⟨variant, inVariants, agrees⟩ := exists_variant typed state
    (List.mem_singleton_self start)
  exact ⟨variant, inVariants, fun var concerned =>
    agrees var concerned (.inr (covers var concerned))⟩

theorem Unrolls.exists_mentions (typed : checker.WellTyped) (unrolls : checker.Unrolls trace)
    (positive : 0 < trace.steps.length) {var : Variable} (concerned : checker.Concerns var) :
    ∃ formula ∈ checker.initial :: trace.target checker.cumulative :: trace.steps,
      ∃ symbol, formula.Mentions symbol ∧ symbol.var = var := by
  obtain ⟨formula, member, symbol, mentions, rfl⟩ := concerned
  simp only [List.mem_cons, List.not_mem_nil, or_false] at member
  rcases member with rfl | rfl | rfl
  · exact ⟨checker.initial, by simp, symbol, mentions, rfl⟩
  · have unfolded := unrolls.opening trace.steps[0] (by simp)
    obtain ⟨other, inStep, same⟩ :=
      (Formula.unfolds_of_unfoldPrimed? unfolded).exists_mentions mentions
    exact ⟨trace.steps[0], by simp, other, inStep, same⟩
  · obtain ⟨bad, indexing, last, -, unfolded⟩ := unrolls.exists_last positive
    have inBad := (mentions_bad_iff typed unfolded _).mpr ⟨symbol, mentions, rfl⟩
    exact ⟨_, by simp, _,
      unrolls.mentions_target_of_last typed checker.cumulative last inBad, rfl⟩

/-- There are fewer states than an image is allowed to grow. -/
theorem Unrolls.exists_states (typed : checker.WellTyped) (unrolls : checker.Unrolls trace)
    (positive : 0 < trace.steps.length) (solver : Solver) :
    ∃ states : List checker.SystemState, states.length < checker.refinementLimit solver trace ∧
      ∀ state : checker.SystemState, ∃ listed ∈ states, listed.Resembles state := by
  let formulas := checker.initial :: trace.target checker.cumulative :: trace.steps
    ++ solver.formulas
  let symbols := (formulas.foldl (fun symbols formula =>
    SortedSet.addAll symbols formula.symbols.keys) SortedMap.empty).keys
  have covers (var : Variable) (concerned : checker.Concerns var) :
      ∃ symbol ∈ symbols, symbol.var = var := by
    obtain ⟨formula, member, symbol, mentions, same⟩ :=
      unrolls.exists_mentions typed positive concerned
    exact ⟨symbol, (Solver.mem_sharedSymbols formulas _ symbol).mpr
      (.inl ⟨formula, List.mem_append_left _ member, mentions⟩), same⟩
  obtain ⟨states, length, all⟩ := SystemState.exists_listing typed covers
  have limit : checker.refinementLimit solver trace = states.length * states.length + 1 := by
    rw [length]
    rfl
  refine ⟨states, ?_, all⟩
  rw [limit]
  exact Nat.lt_succ_of_le (Nat.le_mul_self _)

/-! ## Growing sets of states -/

variable (checker) in
def Remain (states : List checker.SystemState) (inside : checker.SystemState → Prop) : Prop :=
  ∀ state, ¬ inside state → ∃ listed ∈ states, listed.Resembles state

theorem Remain.grow {states : List checker.SystemState} {inside larger : checker.SystemState → Prop}
    (remain : checker.Remain states inside) (includes : ∀ state, inside state → larger state)
    (respects : ∀ state other : checker.SystemState, state.Resembles other →
      (larger state ↔ larger other)) {state : checker.SystemState}
    (isNew : larger state) (outside : ¬ inside state) :
    ∃ fewer : List checker.SystemState, fewer.length < states.length ∧
      checker.Remain fewer larger := by
  classical
  refine ⟨states.filter fun listed => ¬ larger listed, ?_, fun other outsideLarger => ?_⟩
  · obtain ⟨listed, member, resembles⟩ := remain state outside
    rw [List.length_filter_lt_length_iff_exists]
    exact ⟨listed, member, by simpa using (respects listed state resembles).mpr isNew⟩
  · obtain ⟨listed, member, resembles⟩ :=
      remain other fun isInside => outsideLarger (includes other isInside)
    refine ⟨listed, List.mem_filter.mpr ⟨member, ?_⟩, resembles⟩
    simpa [respects listed other resembles] using outsideLarger

end Checker

end SymbolicSafety
