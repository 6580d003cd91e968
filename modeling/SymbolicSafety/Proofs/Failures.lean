import SymbolicSafety.Proofs.ElementarySystems
import SymbolicSafety.Proofs.Progress

namespace SymbolicSafety

/-! How a check can fail. Interpolants are about the versions after the first
step, so they can be moved back to the base versions, and so can all that is
derived from them. What remains are versions that do not exist and messages that
cannot be printed. -/

namespace Formula

/-! ## Nesting -/

private theorem nesting_le_nestingBelow (parent : Kind) (operand : Formula) :
    operand.nesting ≤ nestingBelow parent operand operand.nesting := by
  unfold nestingBelow
  split <;> omega

private theorem nesting_le_nestingAll (parent : Kind) {operand : Formula} {operands : List Formula}
    (member : operand ∈ operands) : operand.nesting ≤ nestingAll parent operands := by
  induction operands with
  | nil => cases member
  | cons head rest induction =>
      have first := nesting_le_nestingBelow parent head
      rw [nestingAll]
      rcases List.mem_cons.mp member with rfl | later
      · omega
      · have := induction later
        omega

private theorem nesting_le_of_mem_children {formula child : Formula}
    (member : child ∈ formula.children) : child.nesting ≤ formula.nesting := by
  cases formula with
  | bool | int | symbol => cases member
  | unary op operand =>
      obtain rfl := List.mem_singleton.mp member
      exact nesting_le_nestingBelow ..
  | binary op left right =>
      have first := nesting_le_nestingBelow op.kind left
      have second := nesting_le_nestingBelow op.kind right
      simp only [children, List.mem_cons, List.not_mem_nil, or_false] at member
      rw [nesting]
      rcases member with rfl | rfl <;> omega
  | nary op operands => exact nesting_le_nestingAll op.kind member
  | ite condition consequent alternative =>
      have first := nesting_le_nestingBelow .ite condition
      have second := nesting_le_nestingBelow .ite consequent
      have third := nesting_le_nestingBelow .ite alternative
      simp only [children, List.mem_cons, List.not_mem_nil, or_false] at member
      rw [nesting]
      rcases member with rfl | rfl | rfl <;> omega

theorem Occurs.nesting_le {part formula : Formula} (occurs : Occurs part formula) :
    part.nesting ≤ formula.nesting := by
  induction occurs with
  | here => exact Nat.le_refl _
  | within member _ induction => exact Nat.le_trans induction (nesting_le_of_mem_children member)

end Formula

namespace Checker

section

variable {State : Type} {checker : Checker State} {trace : Trace} {start : Formula}

theorem OverflowsUnprintably.printable_eq_false (overflows : checker.OverflowsUnprintably)
    (typed : checker.WellTyped) : checker.property.printable = false := by
  obtain ⟨state, fault, overflow, unprintable⟩ := overflows
  have suits := (state.admits_property typed).suits
  have occurs := Formula.occurs_of_overflow
    ((Formula.inferSort_eq_ok_iff ..).mp typed.propertyBoolean) typed.propertyPlain.1 suits overflow
  have deeper := occurs.nesting_le
  simp only [Formula.printable, decide_eq_false_iff_not, Nat.not_le] at unprintable ⊢
  omega

/-! ## Whole checks -/

/-- A check with a bound fails before it starts if the clock cannot show its
deadline, or if the solver has no markers left for its two groups. Otherwise it
ends with a verdict. It fails then only if it needs versions that do not exist, or
if the property overflows in a part that is nested too deeply to be printed.
Whatever a trace is unrolled from, an interpolant is about the versions after the
first step, and folding it there leaves no primes. -/
theorem failures_of_check (typed : checker.WellTyped) (free : checker.initial.PrimeFree)
    {surroundings : Surroundings} (ordinary : surroundings.model = Solver.model) {solver : Solver}
    (idle : solver.assertions = []) {bound : Nat} (bounded : checker.bound = some bound) :
    ((¬ checker.Timely surroundings ∧
        (checker.check surroundings solver).1 = .error .deadlineOverflow) ∨
      (checker.Timely surroundings ∧ ¬ solver.HasMarkers 2 ∧
        (checker.check surroundings solver).1 = .error .markerOverflow) ∨
      checker.CanStart surroundings solver ∧
        ((∃ result, (checker.check surroundings solver).1 = .ok result) ∨
          (¬ checker.Fits bound ∧
            (checker.check surroundings solver).1 = .error .versionOverflow) ∨
          (checker.OverflowsUnprintably ∧ checker.property.printable = false ∧
            (checker.check surroundings solver).1 = .error .unprintable))) ∧
    ∀ trace start, checker.Unrolls trace → checker.Starts trace start →
      ∀ next, trace.indexings[1]? = some next →
      ∀ pattern posed interpolant answered,
        checker.Poses pattern (checker.unrolling trace start) posed →
        posed.interpolant pattern = .ok (interpolant, answered) →
        (∀ symbol, interpolant.formula.Mentions symbol →
          symbol = .version symbol.var (next.get symbol.var)) ∧
        ∃ folded, (checker.direction.image interpolant.formula).fold next = .ok folded ∧
          folded.PrimeFree := by
  constructor
  · by_cases timely : checker.Timely surroundings
    · by_cases markers : solver.HasMarkers 2
      · have starts : checker.CanStart surroundings solver := ⟨timely, markers⟩
        have ends := check_ends_or_excused typed free ordinary idle starts bounded
        refine .inr (.inr ⟨starts, ends.imp_right ?_⟩)
        rintro ⟨error, excused, failed⟩
        rcases excused.cases with ⟨rfl, misfit⟩ | ⟨rfl, overflows⟩
        · exact .inl ⟨misfit, failed⟩
        · exact .inr ⟨overflows, overflows.printable_eq_false typed, failed⟩
      · exact .inr (.inl ⟨timely, markers, check_of_not_hasMarkers timely markers⟩)
    · exact .inl ⟨timely, check_of_not_timely timely solver⟩
  · intro trace start unrolls starts next passed pattern posed interpolant answered poses result
    have speaks := starts.speaksOf typed unrolls
    have reaches := unrolls.indexings 1 next passed
    refine ⟨fun symbol mentions => ?_, poses.exists_fold typed unrolls speaks reaches result⟩
    exact (poses.eq_of_shares typed unrolls speaks reaches
      (Solver.shares_of_interpolant poses.consistent result mentions)).2

end

/-! ## A property that overflows -/

def unit (least : Int64) : Variable := ⟨0, "x", .range least 1⟩

def quotient (var : Variable) : Nat → Formula
  | 0 => .current var
  | times + 1 => .binary .div (quotient var times) (.current var)

/-- A number that keeps its value. The property adds the greatest word to it,
which overflows for one. The quotient is only looked at for other numbers, but it
is always part of the sum. -/
def steady (first : Int64) (times : Nat) : Checker Valuation where
  initial := .binary .eq (.version (unit first) 0) (.int first)
  base := .all 0
  action := ⟨.binary .eq (.primed (unit first)) (.current (unit first)),
    (Indexing.all 0).set (unit first) 1⟩
  property := .binary .leq (.binary .sub
    (.ite (.binary .eq (.current (unit first)) (.int 1)) (.int 1) (quotient (unit first) times))
    (.int (-9223372036854775807))) (.int 9223372036854775807)
  reconstruct := id
  direction := .forward
  bound := some 1
  cumulative := false
  timeout := none
  bounded := by simp

private def firstAttempt (checker : Checker Valuation) : Run (Attempt Unit) := do
  let pattern ← freshPattern
  let trace ← checker.extend (.start checker.base)
  checker.attempt {} pattern (checker.unrolling trace checker.initial) (pure ())

theorem failures_of_check_steady :
    ((steady 0 0).WellTyped ∧ (steady 0 0).initial.PrimeFree ∧ (steady 0 0).Fits 1 ∧
      (steady 0 0).property.printable = true ∧
      ∃ result, ((steady 0 0).check {} (.new 0 .default)).1 = .ok result) ∧
    ∃ (trace : Trace) (next : Indexing) (pattern : Pattern) (posed answered : Solver)
        (interpolant : Interpolant),
      (steady 0 0).Unrolls trace ∧ trace.indexings[1]? = some next ∧
      (steady 0 0).Poses pattern ((steady 0 0).unrolling trace (steady 0 0).initial) posed ∧
      posed.interpolant pattern = .ok (interpolant, answered) ∧
      (∀ symbol, interpolant.formula.Mentions symbol →
        symbol = .version symbol.var (next.get symbol.var)) ∧
      ∃ folded, ((steady 0 0).direction.image interpolant.formula).fold next = .ok folded ∧
        folded.PrimeFree := by
  have elementary : (steady 0 0).Elementary := by decide
  have typed := elementary.wellTyped
  have free := elementary.initialPrimes
  have fits : (steady 0 0).Fits 1 := fits_of_entries (by decide) rfl (by decide)
  have printable : (steady 0 0).property.printable = true := by decide
  obtain ⟨ends, located⟩ := @failures_of_check _ _ typed free {} rfl (.new 0 .default) rfl 1 rfl
  constructor
  · refine ⟨typed, free, fits, printable, ?_⟩
    have starts : (steady 0 0).CanStart {} (.new 0 .default) := ⟨by decide, by decide⟩
    rcases ends with ⟨late, -⟩ | ⟨-, full, -⟩ | ⟨-, ended | ⟨misfit, -⟩ | ⟨-, unprintable, -⟩⟩
    · exact absurd starts.timely late
    · exact absurd starts.markers full
    · exact ended
    · exact absurd fits misfit
    · rw [printable] at unprintable
      cases unprintable
  · obtain ⟨image, after, returned⟩ := @Attempt.exists_returns_of_isExcluded _
      (firstAttempt (steady 0 0)) { solver := .new 0 .default } (by decide +kernel)
    simp only [firstAttempt, Run.returns_bind_iff] at returned
    obtain ⟨pattern, fresh, made, trace, extended, extends', attempt⟩ := returned
    obtain ⟨distinct, -, kept⟩ := returns_freshPattern made
    obtain ⟨unrolls, length, rfl⟩ := returns_extend .start extends'
    obtain ⟨-, derives⟩ := attempt_derives kept distinct attempt
    obtain ⟨pattern, posed, refuted, answered, interpolant, reached, folded, poses, unsat, result,
      -⟩ := derives
    have passed : trace.indexings.length = 2 := by
      simp [Trace.indexings, unrolls.passed_length, length, Trace.start]
    obtain ⟨next, found⟩ : ∃ next, trace.indexings[1]? = some next :=
      ⟨_, List.getElem?_eq_getElem (by omega)⟩
    have checked := poses.check unsat
    exact ⟨trace, next, pattern, refuted, answered, interpolant, unrolls, found, checked, result,
      located trace _ unrolls .initial next found pattern refuted interpolant answered checked
        result⟩

private def failure? {α : Type} : Except CheckError α → Option CheckError
  | .error error => some error
  | .ok _ => none

private theorem eq_error_of_failure? {α : Type} {outcome : Except CheckError α}
    {error : CheckError} (failed : failure? outcome = some error) : outcome = .error error := by
  cases outcome with
  | error found => exact congrArg _ (Option.some.inj failed)
  | ok => cases failed

/-- With a quotient of enough divisions there is no message about the overflow, and
the check fails although it needs few versions. -/
theorem check_fails_steady :
    (steady 1 256).WellTyped ∧ (steady 1 256).initial.PrimeFree ∧ (steady 1 256).Fits 1 ∧
      (steady 1 256).bound = some 1 ∧
      ((steady 1 256).check {} (.new 0 .default)).1 = .error .unprintable := by
  have elementary : (steady 1 256).Elementary := by decide +kernel
  exact ⟨elementary.wellTyped, elementary.initialPrimes,
    fits_of_entries (by decide) rfl (by decide), rfl,
    eq_error_of_failure? (by decide +kernel)⟩

end Checker

end SymbolicSafety
