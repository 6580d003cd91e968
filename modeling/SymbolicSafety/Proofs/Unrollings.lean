import SymbolicSafety.Checker.Basic
import SymbolicSafety.Proofs.TransitionSystem

namespace SymbolicSafety

/-! Unrolled systems and their paths. An assignment makes the steps of a trace
true exactly if the states that it describes at their indexings form a path, and
every path is described by some assignment. -/

namespace Checker

variable {State : Type} {checker : Checker State} {reached : Indexing} {step : Formula}
  {assignment : Assignment}

/-! ## Assignments and paths -/

theorem Legal.isPath (wellFormed : checker.WellFormed)
    (advanced : checker.base.add? checker.action.delta = some reached)
    (unfolded : checker.action.formula.unfoldAt? checker.base = some step)
    (legal : checker.Legal assignment) {length : Nat}
    (holds : ∀ place < length, step.Holds (checker.later assignment place)) :
    checker.IsPath (fun place => (legal.later place).state) length := by
  intro place less
  refine (step_iff wellFormed advanced unfolded).mpr ⟨checker.later assignment place,
    legal.later place, (legal.later place).describes, ?_, holds place less⟩
  rw [later_later]
  exact (legal.later (place + 1)).describes

variable (checker) in
/-- One assignment for the versions up to some steps, and another one for those
after them. -/
def glue (steps : Nat) (first second : Assignment) : Assignment
  | .current var => first (.current var)
  | .version var index =>
      if index.toNat ≤ (checker.base.get var).toNat + steps * (checker.action.delta.get var).toNat
      then first (.version var index)
      else second (.version var (.ofNat
        (index.toNat - steps * (checker.action.delta.get var).toNat)))

section Glue

variable {first second : Assignment} {steps : Nat} {var : Variable} {index : UInt32}

theorem Legal.glue (legal : checker.Legal first) (legal' : checker.Legal second) :
    checker.Legal (checker.glue steps first second) := by
  intro symbol concerned
  cases symbol with
  | current var => exact legal (.current var) concerned
  | version var index =>
      simp only [Checker.glue]
      split
      · exact legal (.version var index) concerned
      · exact legal' (.version var (.ofNat
          (index.toNat - steps * (checker.action.delta.get var).toNat))) concerned

theorem later_glue_of_le {place : Nat}
    (fits : (checker.base.get var).toNat + steps * (checker.action.delta.get var).toNat <
      UInt32.size)
    (early : index.toNat + place * (checker.action.delta.get var).toNat ≤
      (checker.base.get var).toNat + steps * (checker.action.delta.get var).toNat) :
    checker.later (checker.glue steps first second) place (.version var index) =
      checker.later first place (.version var index) := by
  simp only [later, shift, glue]
  rw [if_pos]
  rwa [UInt32.toNat_ofNat_of_lt' (by simpa [UInt32.size] using Nat.lt_of_le_of_lt early fits)]

/-- At the seam and after it the second one counts, if both have the same state
there. -/
theorem later_glue_of_base_le
    (seam : checker.later first steps (.version var (checker.base.get var)) =
      second (.version var (checker.base.get var)))
    (fits : index.toNat + steps * (checker.action.delta.get var).toNat < UInt32.size)
    (late : (checker.base.get var).toNat ≤ index.toNat) :
    checker.later (checker.glue steps first second) steps (.version var index) =
      second (.version var index) := by
  have number : (UInt32.ofNat (index.toNat + steps * (checker.action.delta.get var).toNat)).toNat =
      index.toNat + steps * (checker.action.delta.get var).toNat :=
    UInt32.toNat_ofNat_of_lt' (by simpa [UInt32.size] using fits)
  simp only [later, shift, glue, number]
  split
  next early =>
    obtain rfl : index = checker.base.get var := UInt32.toNat_inj.mp (by omega)
    exact seam
  next => rw [Nat.add_sub_cancel, UInt32.ofNat_toNat]

end Glue

/-- Every path is described by an assignment that makes its steps true. -/
theorem exists_assignment_of_path (wellFormed : checker.WellFormed)
    (advanced : checker.base.add? checker.action.delta = some reached)
    (unfolded : checker.action.formula.unfoldAt? checker.base = some step) {length : Nat}
    (fits : ∀ var, (checker.base.get var).toNat +
      length * (checker.action.delta.get var).toNat < UInt32.size)
    {path : Nat → checker.SystemState} (isPath : checker.IsPath path length) :
    ∃ assignment, checker.Legal assignment ∧
      (∀ place ≤ length, checker.Describes (checker.later assignment place) (path place)) ∧
      ∀ place < length, step.Holds (checker.later assignment place) := by
  induction length with
  | zero =>
      refine ⟨fun symbol => (path 0).value symbol.var,
        fun symbol => (path 0).inDomain symbol.var, fun place le var concerned => ?_, by simp⟩
      obtain rfl := Nat.le_zero.mp le
      rfl
  | succ length induction =>
      have shorter : ∀ var, (checker.base.get var).toNat +
          length * (checker.action.delta.get var).toNat < UInt32.size := by
        intro var
        have := fits var
        rw [Nat.succ_mul] at this
        omega
      obtain ⟨first, legal, describes, holds⟩ :=
        induction shorter fun place less => isPath place (Nat.lt_succ_of_lt less)
      obtain ⟨second, legal', start, finish, holdsLast⟩ :=
        (step_iff wellFormed advanced unfolded).mp (isPath length (Nat.lt_succ_self length))
      -- The last step has an assignment of its own. Both describe the state before
      -- it, so they can be joined there.
      have seam {var : Variable} (concerned : checker.Concerns var) :
          checker.later first length (.version var (checker.base.get var)) =
            second (.version var (checker.base.get var)) :=
        (describes length (Nat.le_refl _) var concerned).trans (start var concerned).symm
      refine ⟨checker.glue length first second, legal.glue legal', fun place le var concerned => ?_,
        fun place less => ?_⟩
      · rcases Nat.lt_or_eq_of_le le with less | rfl
        · have le := Nat.le_of_lt_succ less
          have early := Nat.mul_le_mul_right (checker.action.delta.get var).toNat le
          rw [later_glue_of_le (shorter var) (by omega)]
          exact describes place le var concerned
        · have number := Indexing.get_add advanced var
          have fitsLast := fits var
          rw [Nat.succ_mul] at fitsLast
          rw [← later_later, later, shift_base advanced,
            later_glue_of_base_le (seam concerned) (by omega) (by omega), ← finish var concerned,
            later, shift_base advanced]
      · -- The versions in a step lie between its two states, so that each step reads
        -- one side of the seam only.
        have versions {symbol : Symbol} (mentions : step.Mentions symbol) :=
          mentions_of_step wellFormed.action.regular unfolded mentions
        rcases Nat.lt_or_eq_of_le (Nat.le_of_lt_succ less) with less | rfl
        · refine (Formula.hasTruth_congr fun symbol mentions => ?_).mpr (holds place less)
          obtain ⟨-, index, same, lower, upper⟩ := versions mentions
          have early := Nat.mul_le_mul_right (checker.action.delta.get symbol.var).toNat
            (Nat.succ_le_of_lt less)
          rw [Nat.succ_mul] at early
          rw [same, later_glue_of_le (shorter symbol.var) (by omega)]
        · refine (Formula.hasTruth_congr fun symbol mentions => ?_).mpr holdsLast
          obtain ⟨concerned, index, same, lower, upper⟩ := versions mentions
          have fitsLast := fits symbol.var
          rw [Nat.succ_mul] at fitsLast
          rw [same, later_glue_of_base_le (seam concerned) (by omega) (by omega)]

/-! ## Formulas of a trace -/

variable (checker) in
def Reaches (steps : Nat) (indexing : Indexing) : Prop :=
  ∀ var, (indexing.get var).toNat =
    (checker.base.get var).toNat + steps * (checker.action.delta.get var).toNat

variable (checker) in
def SpeaksOf (first last : Nat) (formula : Formula) : Prop :=
  ∀ symbol, formula.Mentions symbol → checker.Concerns symbol.var ∧
    ∃ index, symbol = .version symbol.var index ∧
      (checker.base.get symbol.var).toNat + first * (checker.action.delta.get symbol.var).toNat ≤
        index.toNat ∧
      index.toNat ≤ (checker.base.get symbol.var).toNat +
        last * (checker.action.delta.get symbol.var).toNat

section Formulas

variable {formula : Formula} {first last place : Nat} {indexing : Indexing}

theorem SpeaksOf.within (speaks : checker.SpeaksOf first last formula)
    (legal : checker.Legal assignment) : assignment.Within formula :=
  fun symbol mentions => legal symbol (speaks symbol mentions).1

theorem SpeaksOf.proper (speaks : checker.SpeaksOf first last formula)
    (typed : checker.WellTyped) : formula.Proper :=
  fun symbol mentions => typed.proper symbol.var (speaks symbol mentions).1

theorem SpeaksOf.mono {first' last' : Nat} (speaks : checker.SpeaksOf first last formula)
    (lower : first' ≤ first) (upper : last ≤ last') : checker.SpeaksOf first' last' formula := by
  intro symbol mentions
  obtain ⟨concerned, index, same, least, greatest⟩ := speaks symbol mentions
  have before := Nat.mul_le_mul_right (checker.action.delta.get symbol.var).toNat lower
  have after := Nat.mul_le_mul_right (checker.action.delta.get symbol.var).toNat upper
  exact ⟨concerned, index, same, by omega, by omega⟩

theorem SpeaksOf.junction {op : NaryOp} {neutral : Bool} {operands : List Formula}
    (each : ∀ operand ∈ operands, checker.SpeaksOf first last operand) :
    checker.SpeaksOf first last (.junction op neutral operands) := by
  intro symbol mentions
  obtain ⟨operand, member, mentions⟩ := Formula.mentions_of_junction mentions
  exact each operand member symbol mentions

theorem SpeaksOf.mkNot (speaks : checker.SpeaksOf first last formula) :
    checker.SpeaksOf first last (.mkNot formula) :=
  fun symbol mentions => speaks symbol ((Formula.mkNot_mentions_iff formula symbol).mp mentions)

theorem Reaches.zero : checker.Reaches 0 checker.base := fun _ => by simp

theorem Reaches.succ {next : Indexing} (reaches : checker.Reaches place indexing)
    (advanced : indexing.add? checker.action.delta = some next) :
    checker.Reaches (place + 1) next := by
  intro var
  rw [Indexing.get_add advanced, reaches var, Nat.succ_mul, Nat.add_assoc]

theorem Reaches.shift (reaches : checker.Reaches place indexing) (var : Variable) :
    checker.shift place (.version var (checker.base.get var)) =
      .version var (indexing.get var) := by
  rw [Checker.shift, ← reaches var, UInt32.ofNat_toNat]

theorem Reaches.get_eq {other : Indexing} (reaches : checker.Reaches place indexing)
    (reaches' : checker.Reaches place other) (var : Variable) :
    indexing.get var = other.get var :=
  UInt32.toNat_inj.mp ((reaches var).trans (reaches' var).symm)

/-- A step is the first step, that much later. -/
theorem Reaches.eq_rename_step (reaches : checker.Reaches place indexing)
    (regular : checker.action.Regular)
    (unfolded : checker.action.formula.unfoldAt? checker.base = some step)
    (unfolded' : checker.action.formula.unfoldAt? indexing = some formula) :
    formula = step.rename (checker.shift place) := by
  refine (Formula.unfolds_of_unfoldPrimed? unfolded).eq_rename
    (Formula.unfolds_of_unfoldPrimed? unfolded') regular.versionFree ?_
  intro var below index index' _ number number'
  have moved : index.toNat + place * (checker.action.delta.get var).toNat = index'.toNat := by
    rw [number, number', reaches var]
    omega
  rw [Checker.shift, moved, UInt32.ofNat_toNat]

theorem Reaches.hasTruth_step_iff (reaches : checker.Reaches place indexing)
    (regular : checker.action.Regular)
    (unfolded : checker.action.formula.unfoldAt? checker.base = some step)
    (unfolded' : checker.action.formula.unfoldAt? indexing = some formula) {holds : Bool} :
    formula.HasTruth assignment holds ↔ step.HasTruth (checker.later assignment place) holds := by
  rw [reaches.eq_rename_step regular unfolded unfolded', Formula.hasTruth_rename_iff]
  rfl

theorem Reaches.speaksOf_step (reaches : checker.Reaches place indexing)
    (regular : checker.action.Regular)
    (unfolded : checker.action.formula.unfoldAt? indexing = some formula) :
    checker.SpeaksOf place (place + 1) formula := by
  intro symbol mentions
  obtain ⟨concerned, index, same, lower, upper⟩ := mentions_of_step regular unfolded mentions
  rw [reaches symbol.var] at lower upper
  exact ⟨concerned, index, same, lower, by rw [Nat.succ_mul]; omega⟩

theorem decided_step (wellFormed : checker.WellFormed)
    (unfolded : checker.action.formula.unfoldAt? checker.base = some step) : step.Decided := by
  have unfolds := Formula.unfolds_of_unfoldPrimed? unfolded
  refine (wellFormed.actionInRange step unfolded).decided ?_ unfolds.primeFree
  exact (Formula.inferSort_eq_ok_iff step .bool).mpr
    (unfolds.hasSort wellFormed.action.regular.typed)

/-! ## Bad states -/

theorem plain_badStates (typed : checker.WellTyped) : checker.badStates.Plain :=
  ⟨typed.propertyPlain.1.mkNot, fun var index mentions =>
    typed.propertyPlain.2 var index ((Formula.mkNot_mentions_iff _ _).mp mentions)⟩

private theorem eq_rename_bad (typed : checker.WellTyped)
    (unfolded : checker.badStates.unfoldAt? indexing = some formula) :
    formula = checker.badStates.rename fun symbol =>
      .version symbol.var (indexing.get symbol.var) :=
  (Formula.unfolds_of_unfoldPrimed? unfolded).eq_rename_current
    (plain_badStates typed).2 (plain_badStates typed).1

theorem mentions_bad_iff (typed : checker.WellTyped)
    (unfolded : checker.badStates.unfoldAt? indexing = some formula) (symbol : Symbol) :
    formula.Mentions symbol ↔ ∃ name, checker.property.Mentions name ∧
      symbol = .version name.var (indexing.get name.var) := by
  rw [eq_rename_bad typed unfolded, Formula.mentions_rename_iff]
  simp only [badStates, Formula.mkNot_mentions_iff]

theorem decided_bad (wellFormed : checker.WellFormed)
    (unfolded : checker.badStates.unfoldAt? indexing = some formula) : formula.Decided := by
  rw [eq_rename_bad wellFormed.toWellTyped unfolded]
  refine (wellFormed.propertyInRange.decided wellFormed.propertyBoolean
    wellFormed.propertyPlain.1).mkNot.rename fun symbol => rfl

theorem Reaches.speaksOf_bad (reaches : checker.Reaches place indexing)
    (typed : checker.WellTyped)
    (unfolded : checker.badStates.unfoldAt? indexing = some formula) :
    checker.SpeaksOf place place formula := by
  intro symbol mentions
  obtain ⟨name, inProperty, rfl⟩ := (mentions_bad_iff typed unfolded symbol).mp mentions
  exact ⟨⟨_, by simp, name, inProperty, rfl⟩, _, rfl,
    Nat.le_of_eq (reaches name.var).symm, Nat.le_of_eq (reaches name.var)⟩

theorem Reaches.holds_bad_iff (reaches : checker.Reaches place indexing)
    (wellFormed : checker.WellFormed)
    (unfolded : checker.badStates.unfoldAt? indexing = some formula) {state : checker.SystemState}
    (describes : checker.Describes (checker.later assignment place) state) :
    formula.Holds assignment ↔ state.Violates := by
  rw [state.violates_iff wellFormed.propertyPlain describes, Formula.Holds,
    eq_rename_bad wellFormed.toWellTyped unfolded, Formula.hasTruth_rename_iff, badStates,
    Formula.hasTruth_mkNot_iff]
  simp only [later, reaches.shift, Bool.not_true]

end Formulas

/-! ## Traces -/

variable (checker) in
/-- The trace is the system unrolled from the base indexing on. -/
structure Unrolls (trace : Trace) : Prop where
  starts : trace.steps = [] → trace.reached = checker.base
  opening : ∀ formula, trace.steps[0]? = some formula →
    checker.action.formula.unfoldAt? checker.base = some formula
  advances : trace.steps ≠ [] → ∃ reached, checker.base.add? checker.action.delta = some reached
  passed_length : trace.passed.length = trace.steps.length
  bad_length : trace.bad.length = trace.steps.length
  indexings : ∀ (place : Nat) (indexing : Indexing), trace.indexings[place]? = some indexing →
    checker.Reaches place indexing
  steps : ∀ (place : Nat) (formula : Formula), trace.steps[place]? = some formula →
    ∃ indexing, checker.Reaches place indexing ∧
      checker.action.formula.unfoldAt? indexing = some formula
  bad : ∀ (place : Nat) (formula : Formula), trace.bad[place]? = some formula →
    ∃ indexing, checker.Reaches (place + 1) indexing ∧
      checker.badStates.unfoldAt? indexing = some formula

theorem Unrolls.start : checker.Unrolls (.start checker.base) where
  starts _ := rfl
  opening formula found := by simp [Trace.start] at found
  advances nonempty := absurd rfl nonempty
  passed_length := rfl
  bad_length := rfl
  indexings place indexing found := by
    cases place with
    | zero =>
        obtain rfl := Option.some.inj found
        exact .zero
    | succ place => simp [Trace.indexings, Trace.start] at found
  steps place formula found := by simp [Trace.start] at found
  bad place formula found := by simp [Trace.start] at found

private theorem getElem?_concat_eq_some {α : Type} {entries : List α} {last found : α}
    {place : Nat} (result : (entries ++ [last])[place]? = some found) :
    entries[place]? = some found ∨ (place = entries.length ∧ found = last) := by
  rw [List.getElem?_append] at result
  split at result
  · exact .inl result
  next late =>
    rw [List.getElem?_singleton] at result
    split at result
    next single => exact .inr ⟨by omega, (Option.some.inj result).symm⟩
    next => cases result

variable {trace : Trace} {formula : Formula}

theorem Unrolls.reaches (unrolls : checker.Unrolls trace) :
    checker.Reaches trace.steps.length trace.reached :=
  unrolls.indexings _ _ (by simp [Trace.indexings, ← unrolls.passed_length])

theorem Unrolls.extend (unrolls : checker.Unrolls trace) {next : Indexing} {step bad : Formula}
    (advanced : trace.reached.add? checker.action.delta = some next)
    (unfoldedStep : checker.action.formula.unfoldAt? trace.reached = some step)
    (unfoldedBad : checker.badStates.unfoldAt? next = some bad) :
    checker.Unrolls ⟨trace.steps ++ [step], trace.passed ++ [trace.reached], next,
      trace.bad ++ [bad]⟩ where
  starts empty := by simp at empty
  opening formula found := by
    rcases getElem?_concat_eq_some found with earlier | ⟨first, rfl⟩
    · exact unrolls.opening formula earlier
    · rwa [unrolls.starts (List.eq_nil_of_length_eq_zero first.symm)] at unfoldedStep
  advances _ := by
    by_cases empty : trace.steps = []
    · exact ⟨next, unrolls.starts empty ▸ advanced⟩
    · exact unrolls.advances empty
  passed_length := by simp [unrolls.passed_length]
  bad_length := by simp [unrolls.bad_length]
  indexings place indexing found := by
    rcases getElem?_concat_eq_some found with earlier | ⟨rfl, rfl⟩
    · exact unrolls.indexings place indexing earlier
    · rw [List.length_append, unrolls.passed_length]
      exact unrolls.reaches.succ advanced
  steps place formula found := by
    rcases getElem?_concat_eq_some found with earlier | ⟨rfl, rfl⟩
    · exact unrolls.steps place formula earlier
    · exact ⟨trace.reached, unrolls.reaches, unfoldedStep⟩
  bad place formula found := by
    rcases getElem?_concat_eq_some found with earlier | ⟨rfl, rfl⟩
    · exact unrolls.bad place formula earlier
    · exact ⟨next, unrolls.bad_length ▸ unrolls.reaches.succ advanced, unfoldedBad⟩

theorem Unrolls.fits (unrolls : checker.Unrolls trace) (var : Variable) :
    (checker.base.get var).toNat +
      trace.steps.length * (checker.action.delta.get var).toNat < UInt32.size :=
  unrolls.reaches var ▸ (trace.reached.get var).toNat_lt

theorem Unrolls.holds_steps_iff (unrolls : checker.Unrolls trace)
    (regular : checker.action.Regular)
    (unfolded : checker.action.formula.unfoldAt? checker.base = some step) :
    (∀ formula ∈ trace.steps, formula.Holds assignment) ↔
      ∀ place < trace.steps.length, step.Holds (checker.later assignment place) := by
  constructor
  · intro holds place less
    have found : trace.steps[place]? = some trace.steps[place] := by simp [less]
    obtain ⟨indexing, reaches, unfolded'⟩ := unrolls.steps place _ found
    exact (reaches.hasTruth_step_iff regular unfolded unfolded').mp
      (holds _ (List.mem_of_getElem? found))
  · intro holds formula member
    obtain ⟨place, found⟩ := List.mem_iff_getElem?.mp member
    obtain ⟨indexing, reaches, unfolded'⟩ := unrolls.steps place _ found
    exact (reaches.hasTruth_step_iff regular unfolded unfolded').mpr
      (holds place (List.getElem?_eq_some_iff.mp found).1)

theorem Unrolls.speaksOf_step (unrolls : checker.Unrolls trace) (regular : checker.action.Regular)
    {place : Nat} (found : trace.steps[place]? = some formula) :
    checker.SpeaksOf place (place + 1) formula := by
  obtain ⟨indexing, reaches, unfolded⟩ := unrolls.steps place formula found
  exact reaches.speaksOf_step regular unfolded

theorem Unrolls.decided_step (unrolls : checker.Unrolls trace) (wellFormed : checker.WellFormed)
    (unfolded : checker.action.formula.unfoldAt? checker.base = some step)
    (member : formula ∈ trace.steps) : formula.Decided := by
  obtain ⟨place, found⟩ := List.mem_iff_getElem?.mp member
  obtain ⟨indexing, reaches, unfolded'⟩ := unrolls.steps place _ found
  rw [reaches.eq_rename_step wellFormed.action.regular unfolded unfolded']
  exact (Checker.decided_step wellFormed unfolded).rename fun symbol =>
    congrArg Variable.domain (shift_var place symbol)

theorem Unrolls.exists_holds_step (unrolls : checker.Unrolls trace)
    (wellFormed : checker.WellFormed) {before after : checker.SystemState}
    (steps : before.Step after) (member : formula ∈ trace.steps) :
    ∃ assignment : Assignment, formula.Holds assignment := by
  obtain ⟨reached, step, valuation, -, unfolded, -, -, admits, holds⟩ := steps
  obtain ⟨place, found⟩ := List.mem_iff_getElem?.mp member
  obtain ⟨indexing, reaches, unfolded'⟩ := unrolls.steps place _ found
  obtain ⟨earlier, same⟩ := exists_later_eq checker valuation.completed place
  refine ⟨earlier, (reaches.hasTruth_step_iff wellFormed.action.regular unfolded unfolded').mpr ?_⟩
  rw [same]
  exact admits.hasTruth_iff.mpr holds

/-! ## Targets -/

theorem Unrolls.decided_bad (unrolls : checker.Unrolls trace) (wellFormed : checker.WellFormed)
    (member : formula ∈ trace.bad) : formula.Decided := by
  obtain ⟨place, found⟩ := List.mem_iff_getElem?.mp member
  obtain ⟨indexing, -, unfolded⟩ := unrolls.bad place formula found
  exact Checker.decided_bad wellFormed unfolded

theorem Unrolls.speaksOf_bad (unrolls : checker.Unrolls trace) (typed : checker.WellTyped)
    (member : formula ∈ trace.bad) : checker.SpeaksOf 1 trace.steps.length formula := by
  obtain ⟨place, found⟩ := List.mem_iff_getElem?.mp member
  obtain ⟨indexing, reaches, unfolded⟩ := unrolls.bad place formula found
  have less := (List.getElem?_eq_some_iff.mp found).1
  rw [unrolls.bad_length] at less
  exact (reaches.speaksOf_bad typed unfolded).mono (Nat.le_add_left 1 place) less

private theorem target_cases (trace : Trace) (cumulative : Bool) :
    (cumulative = true ∧ trace.target cumulative = .mkOr trace.bad) ∨
      (trace.bad.getLast? = none ∧ trace.target cumulative = .bool false) ∨
      trace.bad.getLast? = some (trace.target cumulative) := by
  cases cumulative with
  | true => exact .inl ⟨rfl, rfl⟩
  | false =>
      refine .inr ?_
      rw [Trace.target, if_neg Bool.false_ne_true, List.getLastD_eq_getLast?]
      cases trace.bad.getLast? with
      | none => exact .inl ⟨rfl, rfl⟩
      | some formula => exact .inr rfl

theorem Unrolls.decided_target (unrolls : checker.Unrolls trace) (wellFormed : checker.WellFormed)
    (cumulative : Bool) : (trace.target cumulative).Decided := by
  rcases target_cases trace cumulative with ⟨-, every⟩ | ⟨-, none⟩ | last
  · rw [every]
    exact .mkOr fun formula member => unrolls.decided_bad wellFormed member
  · rw [none]
    exact Formula.decided_bool false
  · exact unrolls.decided_bad wellFormed (List.mem_of_getLast? last)

theorem Unrolls.speaksOf_target (unrolls : checker.Unrolls trace) (typed : checker.WellTyped)
    (cumulative : Bool) : checker.SpeaksOf 1 trace.steps.length (trace.target cumulative) := by
  rcases target_cases trace cumulative with ⟨-, every⟩ | ⟨-, none⟩ | last
  · rw [every]
    exact .junction fun formula member => unrolls.speaksOf_bad typed member
  · rw [none]
    intro symbol mentions
    simp at mentions
  · exact unrolls.speaksOf_bad typed (List.mem_of_getLast? last)

private theorem Unrolls.holds_mkOr_bad_iff (unrolls : checker.Unrolls trace)
    (wellFormed : checker.WellFormed) (legal : checker.Legal assignment) :
    (Formula.mkOr trace.bad).Holds assignment ↔
      ∃ formula ∈ trace.bad, formula.Holds assignment :=
  Formula.holds_mkOr_iff fun _ member => unrolls.decided_bad wellFormed member assignment
    ((unrolls.speaksOf_bad wellFormed.toWellTyped member).within legal)

theorem Unrolls.exists_bad_of_target (unrolls : checker.Unrolls trace)
    (wellFormed : checker.WellFormed) (legal : checker.Legal assignment) {cumulative : Bool}
    (holds : (trace.target cumulative).Holds assignment) :
    ∃ formula ∈ trace.bad, formula.Holds assignment := by
  rcases target_cases trace cumulative with ⟨-, every⟩ | ⟨-, none⟩ | last
  · rw [every] at holds
    exact (unrolls.holds_mkOr_bad_iff wellFormed legal).mp holds
  · rw [none] at holds
    exact absurd (holds.unique rfl) (by decide)
  · exact ⟨_, List.mem_of_getLast? last, holds⟩

/-- All bad states on the way are looked for. -/
theorem Unrolls.holds_target_of_bad (unrolls : checker.Unrolls trace)
    (wellFormed : checker.WellFormed) (legal : checker.Legal assignment)
    (member : formula ∈ trace.bad) (holds : formula.Holds assignment) :
    (trace.target true).Holds assignment :=
  (unrolls.holds_mkOr_bad_iff wellFormed legal).mpr ⟨formula, member, holds⟩

theorem Unrolls.holds_target_of_last (unrolls : checker.Unrolls trace)
    (wellFormed : checker.WellFormed) (legal : checker.Legal assignment) (cumulative : Bool)
    (last : trace.bad.getLast? = some formula) (holds : formula.Holds assignment) :
    (trace.target cumulative).Holds assignment := by
  rcases target_cases trace cumulative with ⟨-, every⟩ | ⟨none, -⟩ | target
  · rw [every]
    exact (unrolls.holds_mkOr_bad_iff wellFormed legal).mpr
      ⟨formula, List.mem_of_getLast? last, holds⟩
  · simp [none] at last
  · rwa [← Option.some.inj (last.symm.trans target)]

theorem Unrolls.exists_last (unrolls : checker.Unrolls trace) (positive : 0 < trace.steps.length) :
    ∃ formula indexing, trace.bad.getLast? = some formula ∧
      checker.Reaches trace.steps.length indexing ∧
      checker.badStates.unfoldAt? indexing = some formula := by
  have less : trace.steps.length - 1 < trace.bad.length := by
    rw [unrolls.bad_length]
    omega
  have found : trace.bad[trace.steps.length - 1]? = some trace.bad[trace.steps.length - 1] := by
    simp [less]
  obtain ⟨indexing, reaches, unfolded⟩ := unrolls.bad _ _ found
  rw [Nat.sub_add_cancel positive] at reaches
  exact ⟨_, indexing, by rw [List.getLast?_eq_getElem?, unrolls.bad_length, found], reaches,
    unfolded⟩

theorem Unrolls.exists_holds_target (unrolls : checker.Unrolls trace)
    (wellFormed : checker.WellFormed) (positive : 0 < trace.steps.length) (cumulative : Bool)
    {state : checker.SystemState} (violates : state.Violates) :
    ∃ assignment : Assignment, (trace.target cumulative).Holds assignment := by
  let constant : Assignment := fun symbol => state.value symbol.var
  have legal : checker.Legal constant := fun symbol => state.inDomain symbol.var
  obtain ⟨bad, indexing, last, reaches, unfolded⟩ := unrolls.exists_last positive
  have describes : checker.Describes (checker.later constant trace.steps.length) state :=
    fun var _ => congrArg state.value (shift_var _ (.version var _))
  exact ⟨constant, unrolls.holds_target_of_last wellFormed legal cumulative last
    ((reaches.holds_bad_iff wellFormed unfolded describes).mpr violates)⟩

theorem Unrolls.mentions_target_of_bad (unrolls : checker.Unrolls trace)
    (typed : checker.WellTyped) (member : formula ∈ trace.bad) {symbol : Symbol}
    (mentions : formula.Mentions symbol) : (trace.target true).Mentions symbol := by
  have about {formula : Formula} (member : formula ∈ trace.bad) : ∃ indexing : Indexing,
      checker.badStates.unfoldAt? indexing = some formula := by
    obtain ⟨place, found⟩ := List.mem_iff_getElem?.mp member
    obtain ⟨indexing, -, unfolded⟩ := unrolls.bad place formula found
    exact ⟨indexing, unfolded⟩
  -- If one of the formulas is constantly true, none of them mentions anything.
  have notConstant : .bool (!false) ∉ trace.bad := by
    intro constant
    obtain ⟨indexing, unfolded⟩ := about member
    obtain ⟨name, inProperty, -⟩ := (mentions_bad_iff typed unfolded symbol).mp mentions
    obtain ⟨indexing', unfolded'⟩ := about constant
    have inConstant := (mentions_bad_iff typed unfolded' _).mpr ⟨name, inProperty, rfl⟩
    simp at inConstant
  exact (Formula.mentions_junction_iff notConstant symbol).mpr ⟨formula, member, mentions⟩

theorem Unrolls.mentions_target_of_first (unrolls : checker.Unrolls trace)
    (typed : checker.WellTyped) (positive : 0 < trace.steps.length) {reached : Indexing}
    (advanced : checker.base.add? checker.action.delta = some reached) {symbol : Symbol}
    (mentions : checker.property.Mentions symbol) :
    (trace.target true).Mentions (.version symbol.var (reached.get symbol.var)) := by
  obtain ⟨bad, found⟩ : ∃ bad, trace.bad[0]? = some bad :=
    ⟨_, List.getElem?_eq_getElem (by rwa [unrolls.bad_length])⟩
  obtain ⟨indexing, reaches, unfolded⟩ := unrolls.bad 0 bad found
  refine unrolls.mentions_target_of_bad typed (List.mem_of_getElem? found) ?_
  rw [mentions_bad_iff typed unfolded, ← reaches.get_eq (.succ .zero advanced)]
  exact ⟨symbol, mentions, rfl⟩

theorem Unrolls.mentions_target_of_last (unrolls : checker.Unrolls trace)
    (typed : checker.WellTyped) (cumulative : Bool)
    (last : trace.bad.getLast? = some formula) {symbol : Symbol}
    (mentions : formula.Mentions symbol) : (trace.target cumulative).Mentions symbol := by
  rcases target_cases trace cumulative with ⟨rfl, -⟩ | ⟨none, -⟩ | target
  · exact unrolls.mentions_target_of_bad typed (List.mem_of_getLast? last) mentions
  · simp [none] at last
  · rwa [← Option.some.inj (last.symm.trans target)]

end Checker

end SymbolicSafety
