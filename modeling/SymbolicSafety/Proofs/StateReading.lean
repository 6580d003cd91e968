import SymbolicSafety.Proofs.Versions

namespace SymbolicSafety

/-! States that are read off a model. A formula about the current state says of
such a state what its unfolding says of the model. -/

namespace Valuation

theorem get?_stateAt (model : Valuation) (indexing : Indexing) (symbol : Symbol) (value : Value) :
    (model.stateAt indexing).get? symbol = some value ↔
      symbol = .current symbol.var ∧
        model.get? (.version symbol.var (indexing.get symbol.var)) = some value := by
  obtain ⟨pairs, made, entries⟩ : ∃ pairs, model.stateAt indexing = SortedMap.ofList pairs ∧
      ∀ (symbol : Symbol) (value : Value), (symbol, value) ∈ pairs ↔
        symbol = .current symbol.var ∧
          model.get? (.version symbol.var (indexing.get symbol.var)) = some value := by
    refine ⟨_, rfl, fun symbol value => ?_⟩
    rw [List.mem_filterMap, SortedMap.get?_eq_some_iff]
    constructor
    · rintro ⟨⟨name, held⟩, member, shown⟩
      cases name with
      | current => simp at shown
      | version var index =>
          simp only [Option.ite_none_right_eq_some, Option.some.injEq, Prod.mk.injEq] at shown
          obtain ⟨rfl, rfl, rfl⟩ := shown
          exact ⟨rfl, member⟩
    · rintro ⟨same, member⟩
      exact ⟨_, member, by simp [← same]⟩
  rw [made]
  constructor
  · intro found
    exact (entries symbol value).mp (SortedMap.mem_of_get?_ofList found)
  · intro held
    refine SortedMap.get?_ofList_of_unique ((entries symbol value).mpr held) fun other member => ?_
    exact Option.some.inj (((entries symbol other).mp member).2.symm.trans held.2)

theorem get?_stateAt_current (model : Valuation) (indexing : Indexing) (var : Variable) :
    (model.stateAt indexing).get? (.current var) =
      model.get? (.version var (indexing.get var)) := by
  refine Option.ext fun value => ?_
  rw [get?_stateAt]
  exact and_iff_right rfl

end Valuation

namespace Formula

variable {formula : Formula}

theorem evaluate_rename_versioned (versionFree : formula.VersionFree) (indexing : Indexing)
    (model : Valuation) : (formula.rename (versioned indexing)).evaluate model =
      (formula.evaluate (model.stateAt indexing)).mapError (.rename (versioned indexing)) := by
  refine (mapError_evaluate formula fun symbol mentions => ?_).symm
  cases symbol with
  | current var => exact (model.get?_stateAt_current indexing var).symm
  | version var index => exact absurd mentions (versionFree var index)

/-- A formula about the current state can be unfolded, and under a model the
unfolding has the values that the formula has in the state of the model. It also
fails like the formula, for versions in the place of variables. -/
theorem evaluate_unfolded_eq_stateAt (primeFree : formula.PrimeFree)
    (versionFree : formula.VersionFree) (indexing : Indexing) (model : Valuation) :
    ∃ unfolded, formula.unfoldAt? indexing = some unfolded ∧
      (∀ value, unfolded.evaluate model = .ok value ↔
        formula.evaluate (model.stateAt indexing) = .ok value) ∧
      ((∃ symbol, unfolded.evaluate model = .error (.unbound symbol)) ↔
        ∃ symbol, formula.evaluate (model.stateAt indexing) = .error (.unbound symbol)) ∧
      unfolded.evaluate model =
        (formula.evaluate (model.stateAt indexing)).mapError (.rename (versioned indexing)) := by
  have same := evaluate_rename_versioned versionFree indexing model
  refine ⟨_, unfoldAt?_eq_rename primeFree, fun value => ?_, ?_, same⟩
  · rw [same, Outcome.mapError_eq_ok_iff]
  · rw [same]
    cases formula.evaluate (model.stateAt indexing) with
    | ok value => simp [Outcome.mapError_ok]
    | error error => cases error <;> simp [Outcome.mapError_error, EvalError.rename]

namespace Sampled

def level : Variable := ⟨0, "x", .int⟩

def valid : Variable := ⟨1, "b", .bool⟩

def low : Formula := .nary .and [.current valid, .binary .lt (.current level) (.int 3)]

def later : Indexing := (Indexing.all 0).set level 2

def firstOnly : Valuation :=
  SortedMap.ofList [(.version level 0, .int 7), (.version valid 0, .bool true)]

def model : Valuation := firstOnly.insert (.version level 2) (.int 1)

/-- The level is low at its current version and not at the first one. A model
without the current version misses it. -/
theorem evaluate_unfolded_eq_stateAt_low :
    low.PrimeFree ∧ low.VersionFree ∧ ∃ unfolded, low.unfoldAt? later = some unfolded ∧
      unfolded.evaluate model = .ok (.bool true) ∧
      ∃ symbol, unfolded.evaluate firstOnly = .error (.unbound symbol) := by
  have primeFree : low.PrimeFree := by simp [low, current]
  have versionFree : low.VersionFree := fun var index => by simp [low, current]
  obtain ⟨unfolded, found, values, -⟩ :=
    evaluate_unfolded_eq_stateAt primeFree versionFree later model
  obtain ⟨again, foundAgain, -, missed, -⟩ :=
    evaluate_unfolded_eq_stateAt primeFree versionFree later firstOnly
  obtain rfl := Option.some.inj (found.symm.trans foundAgain)
  exact ⟨primeFree, versionFree, unfolded, found, (values _).mpr rfl, missed.mpr ⟨_, rfl⟩⟩

end Sampled

end Formula

end SymbolicSafety
