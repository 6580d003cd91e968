import Mathlib.Tactic.MkIffOfInductiveProp
import SymbolicSafety.Proofs.TransitionSystem

namespace SymbolicSafety

/-! Systems whose well-formedness and whose steps can be computed. What is said
about all parts of a formula is decided by recursion over it, a formula that
computes nothing does not leave the range of the integers, and the versions of a
simple step have the values of the two states. -/

namespace Formula

variable {formula : Formula}

/-! ## Decisions about formulas -/

instance : Decidable formula.IsBoolean :=
  match inferred : formula.inferSort with
  | .ok .bool => .isTrue inferred
  | .ok .int | .error _ => .isFalse (by simp [IsBoolean, inferred])

mutual

def all (test : Formula → Bool) : Formula → Bool
  | .bool holds => test (.bool holds)
  | .int value => test (.int value)
  | .symbol name => test (.symbol name)
  | .unary op operand => test (.unary op operand) && operand.all test
  | .binary op left right => test (.binary op left right) && left.all test && right.all test
  | .nary op operands => test (.nary op operands) && allOf test operands
  | .ite condition consequent alternative =>
      test (.ite condition consequent alternative) && condition.all test && consequent.all test &&
        alternative.all test

def allOf (test : Formula → Bool) : List Formula → Bool
  | [] => true
  | formula :: rest => formula.all test && allOf test rest

end

theorem allOf_eq (test : Formula → Bool) (formulas : List Formula) :
    allOf test formulas = formulas.all (all test) := by
  induction formulas with
  | nil => rfl
  | cons formula rest induction => simp [allOf, induction]

theorem all_eq (test : Formula → Bool) (formula : Formula) :
    formula.all test = (test formula && formula.children.all (all test)) := by
  cases formula <;> simp [all, allOf_eq, children, Bool.and_assoc]

theorem all_iff (test : Formula → Bool) (formula : Formula) :
    formula.all test = true ↔ ∀ part, Occurs part formula → test part = true := by
  induction formula using inductOnChildren with
  | step formula childCases =>
      rw [all_eq, Bool.and_eq_true, List.all_eq_true]
      simp only [occurs_iff _ formula, or_imp, forall_and, forall_eq]
      refine and_congr_right fun _ => ?_
      constructor
      · rintro each part ⟨child, member, occurs⟩
        exact (childCases child member).mp (each child member) part occurs
      · intro each child member
        exact (childCases child member).mpr fun part occurs => each part ⟨child, member, occurs⟩

instance {meets : Formula → Prop} [DecidablePred meets] :
    Decidable (∀ part, Occurs part formula → meets part) :=
  decidable_of_iff (formula.all (fun part => decide (meets part)) = true) (by
    simp only [all_iff, decide_eq_true_eq])

def isPrimed : Formula → Bool
  | .unary op _ => op = .prime
  | _ => false

instance : Decidable formula.PrimeFree :=
  decidable_of_iff (∀ part, Occurs part formula → part.isPrimed = false) (by
    constructor
    · intro each operand occurs
      cases each _ occurs
    · intro free part occurs
      cases part with
      | unary op operand =>
          refine decide_eq_false ?_
          rintro rfl
          exact free operand occurs
      | _ => rfl)

def name? : Formula → Option Symbol
  | .symbol name => some name
  | _ => none

instance {meets : Symbol → Prop} [DecidablePred meets] :
    Decidable (∀ symbol, formula.Mentions symbol → meets symbol) :=
  decidable_of_iff (∀ part, Occurs part formula → ∀ symbol ∈ part.name?, meets symbol) (by
    constructor
    · intro each symbol mentions
      exact each _ mentions symbol rfl
    · intro each part occurs symbol named
      cases part with
      | symbol =>
          cases named
          exact each _ occurs
      | _ => cases named)

instance : Decidable formula.VersionFree :=
  decidable_of_iff (∀ symbol, formula.Mentions symbol → symbol = .current symbol.var) (by
    constructor
    · intro current var index mentions
      cases current _ mentions
    · intro free symbol mentions
      cases symbol with
      | current => rfl
      | version var index => exact absurd mentions (free var index))

instance : Decidable formula.Plain := inferInstanceAs (Decidable (_ ∧ _))

/-! ## Arithmetic -/

def computes : Formula → Bool
  | .unary op _ => op = .neg
  | .binary op _ _ => op = .sub || op = .div || op = .mod
  | .nary op _ => op = .add || op = .mul
  | _ => false

theorem Overflows.computes {valuation : Valuation} (overflows : formula.Overflows valuation) :
    formula.computes = true := by
  cases overflows with
  | @binary op _ _ _ _ sorts => cases op <;> simp_all [Formula.computes, BinaryOp.Sorts]
  | neg | sum | product => rfl

def ArithmeticFree (formula : Formula) : Prop :=
  ∀ part, Occurs part formula → part.computes = false

instance : Decidable formula.ArithmeticFree :=
  inferInstanceAs (Decidable (∀ part, Occurs part formula → _))

theorem ArithmeticFree.staysInRange (inert : formula.ArithmeticFree)
    (typed : formula.HasSort .bool) (free : formula.PrimeFree) : formula.StaysInRange := by
  intro valuation admits fault overflow
  rcases evaluate_cases typed free admits.suits with
    ⟨value, evaluated, -⟩ | ⟨blamed, -, occurs, overflows⟩
  · rw [overflow] at evaluated
    cases evaluated
  · have computes := overflows.computes
    rw [inert blamed occurs] at computes
    cases computes

end Formula

namespace Checker

variable {State : Type} {checker : Checker State}

instance (var : Variable) : Decidable (checker.Concerns var) :=
  decidable_of_iff (¬ ∀ formula ∈ [checker.initial, checker.action.formula, checker.property],
    ∀ symbol, formula.Mentions symbol → symbol.var ≠ var) (by
    simp only [Concerns, Classical.not_forall, exists_prop, Classical.not_not, ne_eq])

instance {meets : Variable → Prop} [DecidablePred meets] :
    Decidable (∀ var, checker.Concerns var → meets var) :=
  decidable_of_iff (∀ formula ∈ [checker.initial, checker.action.formula, checker.property],
    ∀ symbol, formula.Mentions symbol → meets symbol.var) (by
    constructor
    · rintro each var ⟨formula, member, symbol, mentions, rfl⟩
      exact each formula member symbol mentions
    · intro each formula member symbol mentions
      exact each _ ⟨formula, member, symbol, mentions, rfl⟩)

variable (checker) in
/-- The system is well-typed, and its action is a formula. -/
@[mk_iff] structure Elementary : Prop where
  action : Action.ofFormula? checker.action.formula = some checker.action
  actionBoolean : checker.action.formula.IsBoolean
  actionVersions : checker.action.formula.VersionFree
  initialBoolean : checker.initial.IsBoolean
  initialVersions : ∀ symbol, checker.initial.Mentions symbol →
    symbol = .version symbol.var (checker.base.get symbol.var)
  initialPrimes : checker.initial.PrimeFree
  propertyBoolean : checker.property.IsBoolean
  propertyPlain : checker.property.Plain
  proper : ∀ var, checker.Concerns var → var.domain.Proper

instance : Decidable checker.Elementary :=
  decidable_of_iff _ checker.elementary_iff.symm

theorem Elementary.wellTyped (elementary : checker.Elementary) : checker.WellTyped where
  action := .inl ⟨_, elementary.actionBoolean, elementary.actionVersions, elementary.action⟩
  initialBoolean := elementary.initialBoolean
  initialVersions := elementary.initialVersions
  propertyBoolean := elementary.propertyBoolean
  propertyPlain := elementary.propertyPlain
  proper := elementary.proper

/-- Only the action may compute, as long as it stays in range. -/
theorem Elementary.wellFormed (elementary : checker.Elementary)
    (initial : checker.initial.ArithmeticFree) (property : checker.property.ArithmeticFree)
    (action : ∀ step ∈ checker.action.formula.unfoldAt? checker.base, step.StaysInRange) :
    checker.WellFormed where
  toWellTyped := elementary.wellTyped
  actionInRange := action
  initialInRange := initial.staysInRange
    ((Formula.inferSort_eq_ok_iff ..).mp elementary.initialBoolean) elementary.initialPrimes
  propertyInRange := property.staysInRange
    ((Formula.inferSort_eq_ok_iff ..).mp elementary.propertyBoolean) elementary.propertyPlain.1

theorem Elementary.wellFormed_of_arithmeticFree (elementary : checker.Elementary)
    (inert : checker.initial.ArithmeticFree ∧ checker.property.ArithmeticFree ∧
      ∀ step ∈ checker.action.formula.unfoldAt? checker.base, step.ArithmeticFree) :
    checker.WellFormed := by
  refine elementary.wellFormed inert.1 inert.2.1 fun step unfolded => ?_
  have unfolds := Formula.unfolds_of_unfoldPrimed? unfolded
  exact (inert.2.2 step unfolded).staysInRange
    (unfolds.hasSort ((Formula.inferSort_eq_ok_iff ..).mp elementary.actionBoolean))
    unfolds.primeFree

/-! ## Simple steps -/

instance (formula : Formula) (assignment : Assignment) (holds : Bool) :
    Decidable (formula.HasTruth assignment holds) :=
  match ended : formula.evaluate (assignment.valuation [formula]) with
  | .ok (.bool found) => decidable_of_iff (found = holds) (by simp [Formula.HasTruth, ended])
  | .ok (.int _) | .error _ => .isFalse (by simp [Formula.HasTruth, ended])

instance (formula : Formula) (assignment : Assignment) : Decidable (formula.Holds assignment) :=
  inferInstanceAs (Decidable (formula.HasTruth assignment true))

namespace SystemState

variable {before after : checker.SystemState}

instance : Decidable before.Violates :=
  match ended : checker.property.evaluate (before.reading checker.property) with
  | .ok (.bool false) => .isTrue ended
  | .ok (.bool true) | .ok (.int _) | .error _ => .isFalse (by simp [Violates, ended])

def between (before after : checker.SystemState) : Assignment
  | .current var => before.value var
  | .version var index =>
      if index = checker.base.get var then before.value var else after.value var

/-- If a step takes every variable one version further, it is described by the two
states alone. -/
theorem step_iff_holds_between (wellFormed : checker.WellFormed) {step : Formula}
    (advances : (checker.base.add? checker.action.delta).isSome = true)
    (unfolded : checker.action.formula.unfoldAt? checker.base = some step)
    (single : ∀ var, checker.Concerns var → checker.action.delta.get var = 1) :
    before.Step after ↔ step.Holds (before.between after) := by
  obtain ⟨reached, advanced⟩ := Option.isSome_iff_exists.mp advances
  have next (var : Variable) (concerned : checker.Concerns var) :
      (reached.get var).toNat = (checker.base.get var).toNat + 1 := by
    have number := Indexing.get_add advanced var
    rwa [single var concerned] at number
  rw [step_iff wellFormed advanced unfolded]
  constructor
  · rintro ⟨assignment, legal, describes, describesNext, holds⟩
    refine (Formula.hasTruth_congr fun symbol mentions => ?_).mpr holds
    obtain ⟨concerned, index, same, lower, upper⟩ :=
      mentions_of_step wellFormed.action.regular unfolded mentions
    rw [same, between]
    split
    next first => rw [first, describes _ concerned]
    next later =>
      have last : index = reached.get symbol.var := by
        rw [single _ concerned] at upper
        have differs : index.toNat ≠ (checker.base.get symbol.var).toNat :=
          fun equal => later (UInt32.toNat_inj.mp equal)
        have one : (1 : UInt32).toNat = 1 := rfl
        exact UInt32.toNat_inj.mp (by rw [next _ concerned]; omega)
      rw [last, ← describesNext _ concerned, Checker.later, shift_base advanced]
  · intro holds
    refine ⟨before.between after, fun symbol concerned => ?_, fun var _ => ?_,
      fun var concerned => ?_, holds⟩
    · cases symbol with
      | current var => exact before.inDomain var concerned
      | version var index =>
          rw [between]
          split
          · exact before.inDomain var concerned
          · exact after.inDomain var concerned
    · rw [between, if_pos rfl]
    · have moved : reached.get var ≠ checker.base.get var := by
        intro same
        have number := next var concerned
        rw [same] at number
        omega
      rw [Checker.later, shift_base advanced, between, if_neg moved]

end SystemState

end Checker

end SymbolicSafety
