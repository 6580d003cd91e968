import SymbolicSafety.Proofs.Counterexamples
import SymbolicSafety.Proofs.Loops

namespace SymbolicSafety

/-! What a verdict says about the system. Every image covers the initial states,
a step from it stays in it or leads into the new states, and no path as long as
the trace leads from it into a bad state. When there is nothing new, the image
is inductive and the system safe. -/

namespace Checker

variable {State : Type} {checker : Checker State} {surroundings : Surroundings}
  {before after : RunState} {pattern : Pattern} {trace : Trace} {depth : Nat}
  {image new : Formula}

variable (checker) in
def Stems (depth : Nat) (state : checker.SystemState) : Prop :=
  ∃ trace start, checker.Unrolls trace ∧ trace.steps.length = depth ∧
    checker.StateFormula checker.initial ∧ checker.Starts trace start ∧ state.Satisfies start

variable (checker) in
structure Certifies (depth : Nat) (image : Formula) : Prop where
  stems : ∀ state : checker.SystemState, state.Satisfies image → checker.Stems depth state
  avoids : checker.Avoids depth image
  initial : ∀ state : checker.SystemState, state.Satisfies checker.initial → state.Satisfies image
  closed : ∀ before after : checker.SystemState, before.Satisfies image → before.Step after →
    after.Satisfies image
  safe : ∀ state : checker.SystemState, state.Reachable → state.Satisfies checker.property

theorem Certifies.not_violates (certifies : checker.Certifies depth image)
    {run : Nat → checker.SystemState} {length : Nat} (isRun : checker.IsRun run length) :
    ¬ (run length).Violates := by
  intro violates
  have satisfies := certifies.safe (run length) ⟨run, length, isRun, rfl⟩
  simpa using Except.ok.inj (violates.symm.trans satisfies)

variable (checker) in
/-- The image and the new states cover the initial states and what one step
makes of the image, from where no bad state is as far away as the trace is long. -/
structure Approximates (trace : Trace) (image new : Formula) : Prop where
  aboutImage : checker.StateFormula image
  aboutNew : checker.StateFormula new
  startsNew : checker.Starts trace new
  stems : ∀ state : checker.SystemState, state.Satisfies image →
    ∃ start, checker.Starts trace start ∧ state.Satisfies start
  avoidsImage : checker.Avoids trace.steps.length image
  avoidsNew : checker.Avoids trace.steps.length new
  initial : ∀ state : checker.SystemState, state.Satisfies checker.initial → state.Satisfies image
  covers : ∀ before after : checker.SystemState, before.Satisfies image → before.Step after →
    after.Satisfies image ∨ after.Satisfies new
  safe : ∀ path : Nat → checker.SystemState, (path 0).Satisfies image →
    checker.IsPath path trace.steps.length → ¬ (path trace.steps.length).Violates

theorem SafeBelow.avoids_initial (positive : 0 < depth) (safe : checker.SafeBelow depth) :
    checker.Avoids depth checker.initial := by
  intro _ path satisfies isPath place le
  exact safe path place (by omega) ⟨satisfies, fun earlier less => isPath earlier (by omega)⟩

section Growing

variable (wellFormed : checker.WellFormed) (unrolls : checker.Unrolls trace)
  (positive : 0 < trace.steps.length)
include wellFormed unrolls positive

theorem Derives.approximates (about : checker.StateFormula checker.initial)
    (safe : checker.SafeBelow trace.steps.length)
    (derives : checker.Derives trace checker.initial new) :
    checker.Approximates trace checker.initial new := by
  have excludes := derives.excludes wellFormed unrolls positive about
  exact
    { aboutImage := about
      aboutNew := excludes.about
      startsNew := .image .initial derives
      stems := fun state satisfies => ⟨_, .initial, satisfies⟩
      avoidsImage := safe.avoids_initial positive
      avoidsNew := excludes.avoids
      initial := fun _ satisfies => satisfies
      covers := fun before after satisfies step =>
        .inr (excludes.covers before after satisfies step)
      safe := excludes.safe }

theorem Approximates.grow (approximates : checker.Approximates trace image new) {next : Formula}
    (derives : checker.Derives trace new next) :
    checker.Approximates trace (.mkOr [image, new]) next := by
  have excludes := derives.excludes wellFormed unrolls positive approximates.aboutNew
  have inUnion {state : checker.SystemState} : state.Satisfies (.mkOr [image, new]) ↔
      state.Satisfies image ∨ state.Satisfies new :=
    approximates.aboutImage.satisfies_mkOr_iff approximates.aboutNew
  refine ⟨approximates.aboutImage.mkOr approximates.aboutNew, excludes.about,
    .image approximates.startsNew derives, ?_, ?_, excludes.avoids, ?_, ?_, ?_⟩
  · intro state satisfies
    rcases inUnion.mp satisfies with inImage | inNew
    · exact approximates.stems state inImage
    · exact ⟨new, approximates.startsNew, inNew⟩
  · intro cumulative path satisfies
    rcases inUnion.mp satisfies with inImage | inNew
    · exact approximates.avoidsImage cumulative path inImage
    · exact approximates.avoidsNew cumulative path inNew
  · intro state satisfies
    exact inUnion.mpr (.inl (approximates.initial state satisfies))
  · intro before after satisfies step
    rcases inUnion.mp satisfies with inImage | inNew
    · exact .inl (inUnion.mpr (approximates.covers before after inImage step))
    · exact .inr (excludes.covers before after inNew step)
  · intro path satisfies isPath
    rcases inUnion.mp satisfies with inImage | inNew
    · exact approximates.safe path inImage isPath
    · exact excludes.safe path inNew isPath

end Growing

/-- An image to which nothing is added is inductive. A run that is not shorter
than the depth ends in a path of that length out of the image. -/
theorem Approximates.certifies (wellFormed : checker.WellFormed)
    (about : checker.StateFormula checker.initial) (unrolls : checker.Unrolls trace)
    (approximates : checker.Approximates trace image new)
    (safe : checker.SafeBelow trace.steps.length)
    (nothingNew : ∀ state : checker.SystemState, state.Satisfies new → state.Satisfies image) :
    checker.Certifies trace.steps.length image := by
  have closed : ∀ before after : checker.SystemState, before.Satisfies image →
      before.Step after → after.Satisfies image := fun before after satisfies step =>
    (approximates.covers before after satisfies step).elim id (nothingNew after)
  refine ⟨fun state satisfies => ?_, approximates.avoidsImage, approximates.initial, closed, ?_⟩
  · obtain ⟨start, starts, satisfiesStart⟩ := approximates.stems state satisfies
    exact ⟨trace, start, unrolls, rfl, about, starts, satisfiesStart⟩
  rintro state ⟨run, length, ⟨start, isPath⟩, rfl⟩
  apply SystemState.satisfies_property wellFormed
  by_cases short : length < trace.steps.length
  · exact safe run length short ⟨start, isPath⟩
  · have inImage (place : Nat) (le : place ≤ length) : (run place).Satisfies image := by
      induction place with
      | zero => exact approximates.initial _ start
      | succ place induction =>
          exact closed _ _ (induction (by omega)) (isPath place (by omega))
    -- The last steps of the run make a path of just that length.
    have ends := approximates.safe (fun place => run (length - trace.steps.length + place))
      (inImage _ (by omega)) fun place less => isPath _ (by omega)
    rwa [Nat.sub_add_cancel (by omega)] at ends

/-! ## Searching -/

variable (checker) in
/-- What each verdict claims. Counterexamples need the models of the solver. -/
def Sound (surroundings : Surroundings) : Verdict State → Prop
  | .safe proof => checker.Certifies proof.depth proof.image
  | .violated counterexample => surroundings.model = Solver.model →
      ∃ depth states, counterexample = ⟨depth, states.map checker.reconstruct⟩ ∧
        checker.Witnesses depth states
  | .unknown (.boundReached bound) => checker.bound = some bound ∧ checker.SafeBelow (bound + 1)
  | .unknown _ => True

theorem Interrupts.sound {reason : UnknownReason} (interrupts : Interrupts reason) :
    checker.Sound surroundings (.unknown reason) := by
  cases reason with
  | boundReached bound => exact absurd rfl (interrupts bound)
  | inconclusive | timeout | cancelled => trivial

variable (checker) in
def SoundUnless (surroundings : Surroundings) (after : RunState) : Option (Verdict State) → Prop
  | some verdict => checker.Sound surroundings verdict
  | none => after.solver.assertions = []

/-- The image grows until nothing is new, or until a bad state comes too close. -/
theorem Refines.sound (wellFormed : checker.WellFormed)
    (about : checker.StateFormula checker.initial) (unrolls : checker.Unrolls trace)
    (positive : 0 < trace.steps.length) (distinct : pattern.first ≠ pattern.second)
    (safe : checker.SafeBelow trace.steps.length) {disjuncts : Nat} {images : List Formula}
    {result : Option (Verdict State)}
    (approximates : checker.Approximates trace image new)
    (idle : before.solver.assertions = [])
    (refines : checker.Refines surroundings pattern trace before image disjuncts new images result
      after) : checker.SoundUnless surroundings after result := by
  induction refines with
  | closed added =>
      obtain ⟨posed, answered, formulas, consistent, answer, -⟩ := returns_addsStates idle added
      have differ := approximates.aboutNew.difference approximates.aboutImage
      refine approximates.certifies wellFormed about unrolls safe fun state inNew => ?_
      apply Classical.byContradiction
      intro outside
      exact differ.not_satisfies_of_unsat formulas consistent.assertable answer state
        ((approximates.aboutNew.satisfies_difference_iff approximates.aboutImage).mpr
          ⟨inNew, outside⟩)
  | interrupted added =>
      obtain ⟨posed, answered, -, -, answer, -⟩ := returns_addsStates idle added
      exact answer.sound
  | reached added probes =>
      -- The new states may be unreachable, so a bad state behind them proves
      -- nothing, and a deeper search has to decide.
      obtain ⟨noted, message, idleNoted, attempt⟩ := attempts_of_probe idle added probes
      obtain ⟨_, _, inner, _, _, logged, closed⟩ := attempt_reached idleNoted distinct attempt
      obtain rfl := (Run.returns_log_iff ..).mp logged
      exact closed rfl
  | stopped added probes =>
      obtain ⟨noted, message, idleNoted, attempt⟩ := attempts_of_probe idle added probes
      exact (attempt_stopped idleNoted distinct attempt).sound
  | grown added probes _ induction =>
      obtain ⟨noted, message, idleNoted, attempt⟩ := attempts_of_probe idle added probes
      obtain ⟨idleNext, derives⟩ := attempt_derives idleNoted distinct attempt
      exact induction (approximates.grow wellFormed unrolls positive derives) idleNext

/-- One depth: a shortest run into a bad state, an inductive image, or the
knowledge that no run of this length ends badly. -/
theorem returns_searchAt (wellFormed : checker.WellFormed)
    (about : checker.StateFormula checker.initial) (unrolls : checker.Unrolls trace)
    (positive : 0 < trace.steps.length) (distinct : pattern.first ≠ pattern.second)
    (safe : checker.SafeBelow trace.steps.length) {result : Option (Verdict State)}
    (idle : before.solver.assertions = [])
    (returned : (checker.searchAt surroundings pattern trace).Returns before result after) :
    checker.SoundUnless surroundings after result ∧
      (result = none → checker.SafeBelow (trace.steps.length + 1)) := by
  rcases searchAt_cases returned with
    ⟨reason, rfl, attempt⟩ | ⟨counterexample, rfl, attempt⟩ |
    ⟨new, attempted, images, attempt, refines⟩
  · exact ⟨(attempt_stopped idle distinct attempt).sound, by simp⟩
  · refine ⟨fun ordinary => ?_, by simp⟩
    obtain ⟨posed, asked, inner, poses, sat, shown, -⟩ := attempt_reached idle distinct attempt
    obtain ⟨model, found, states, upTo, witnessed⟩ :=
      witnesses_of_sat wellFormed about unrolls positive poses sat safe
    obtain ⟨rfl, -⟩ := (returns_witness_iff (ordinary ▸ found) upTo).mp shown
    exact ⟨_, states, by rw [witnessed.length, Nat.add_sub_cancel], witnessed⟩
  · obtain ⟨idleNext, derives⟩ := attempt_derives idle distinct attempt
    have excludes := derives.excludes wellFormed unrolls positive about
    refine ⟨refines.sound wellFormed about unrolls positive distinct safe
      (derives.approximates wellFormed unrolls positive about safe) idleNext,
      fun _ run length less isRun => ?_⟩
    rcases Nat.lt_or_eq_of_le (Nat.le_of_lt_succ less) with shorter | rfl
    · exact safe run length shorter isRun
    · exact excludes.safe run isRun.1 isRun.2

theorem returns_deepen (wellFormed : checker.WellFormed)
    (about : checker.StateFormula checker.initial) (distinct : pattern.first ≠ pattern.second)
    {fuel : Nat} {verdict : Verdict State} (unrolls : checker.Unrolls trace)
    (within : ∀ bound, checker.bound = some bound → trace.steps.length + fuel = bound)
    (safe : checker.SafeBelow (trace.steps.length + 1)) (idle : before.solver.assertions = [])
    (returned : (checker.deepen surroundings pattern fuel trace).Returns before verdict after) :
    checker.Sound surroundings verdict := by
  induction fuel generalizing trace before with
  | zero =>
      obtain ⟨⟨bound, bounded⟩, rfl, -⟩ := returns_deepen_zero returned
      exact ⟨bounded.trans (congrArg some (within bound bounded).symm), safe⟩
  | succ fuel induction =>
      obtain ⟨next, entered, unrollsNext, length, kept, -, result, searched, searches, ended⟩ :=
        deepen_succ_cases unrolls returned
      obtain ⟨sound, safeNext⟩ := returns_searchAt wellFormed about unrollsNext (by omega) distinct
        (length ▸ safe) (kept.trans idle) searches
      rcases ended with ⟨rfl, rfl⟩ | ⟨rfl, continues⟩
      · exact sound
      · refine induction unrollsNext (fun bound bounded => ?_) (safeNext rfl) sound continues
        rw [length, ← within bound bounded]
        omega

/-! ## Initial states -/

private theorem certifies_false
    (none : ∀ state : checker.SystemState, ¬ state.Satisfies checker.initial) :
    checker.Certifies 0 (.bool false) where
  stems _ satisfies := by simp [SystemState.Satisfies, Formula.evaluate] at satisfies
  avoids _ path satisfies := by simp [SystemState.Satisfies, Formula.evaluate] at satisfies
  initial state satisfies := absurd satisfies (none state)
  closed before _ satisfies := by simp [SystemState.Satisfies, Formula.evaluate] at satisfies
  safe state := by
    rintro ⟨run, length, isRun, -⟩
    exact absurd isRun.1 (none (run 0))

private theorem safeBelow_one (wellFormed : checker.WellFormed)
    (about : checker.StateFormula checker.initial) {bad : Formula}
    (unfolded : checker.badStates.unfoldAt? checker.base = some bad) {posed checked : Solver}
    (formulas : posed.formulas = [checker.initial, bad]) (consistent : posed.Consistent)
    (unsat : posed.check = .ok (.unsat, checked)) : checker.SafeBelow 1 := by
  intro run length less isRun violates
  obtain rfl : length = 0 := by omega
  obtain ⟨assignment, legal, describes⟩ := (run 0).exists_describes
  have speaks := Reaches.zero.speaksOf_bad wellFormed.toWellTyped unfolded
  have within : ∀ formula ∈ posed.formulas, assignment.Within formula := by
    rw [formulas, List.forall_mem_cons, List.forall_mem_singleton]
    exact ⟨about.speaks.within legal, speaks.within legal⟩
  refine Solver.not_holds_of_check consistent.assertable unsat within ?_
  rw [formulas, List.forall_mem_cons, List.forall_mem_singleton]
  refine ⟨(about.satisfies_iff describes).mp isRun.1, ?_⟩
  exact (Reaches.zero.holds_bad_iff wellFormed unfolded
    ((later_zero assignment).symm ▸ describes)).mpr violates

theorem returns_searchInitial (wellFormed : checker.WellFormed) {result : Option (Verdict State)}
    (idle : before.solver.assertions = [])
    (returned : (checker.searchInitial surroundings).Returns before result after) :
    checker.SoundUnless surroundings after result ∧ checker.StateFormula checker.initial ∧
      (result = none → checker.SafeBelow 1) := by
  simp only [searchInitial, Run.returns_inScope_iff, Run.returns_bind_iff] at returned
  obtain ⟨inner, ⟨_, one, assertedInitial, finding, asked, queried, ended⟩, closed⟩ := returned
  have addedInitial := Run.returns_assert assertedInitial
  obtain ⟨assertable, assertions, scopes⟩ := Solver.assert_eq_ok addedInitial
  have about := StateFormula.initial wellFormed assertable.primeFree
  have consistent := (Solver.consistent_push idle).assert addedInitial
  have answered := returns_query queried
  have formulas : one.solver.formulas = [checker.initial] := by
    simp [Solver.formulas, assertions, Solver.push, idle]
  cases finding with
  | stopped reason =>
      obtain ⟨rfl, -⟩ := (Run.returns_pure_iff ..).mp ended
      exact ⟨answered.sound, about, by simp⟩
  | unsatisfiable =>
      obtain ⟨rfl, -⟩ := (Run.returns_pure_iff ..).mp ended
      exact ⟨certifies_false
        (about.not_satisfies_of_unsat formulas consistent.assertable answered), about,
        by simp⟩
  | satisfiable =>
      simp only [Run.returns_bind_iff, Run.returns_unfold_iff] at ended
      obtain ⟨bad, _, ⟨unfolded, rfl⟩, _, two, assertedBad, finding, answer, asks, ended⟩ := ended
      have addedBad := Run.returns_assert assertedBad
      obtain ⟨-, -, -, -, -, -, -, kept, keptScopes, -⟩ := Solver.check_eq_ok answered
      obtain ⟨-, assertionsBad, scopesBad⟩ := Solver.assert_eq_ok addedBad
      have consistentBad := (consistent.check answered).assert addedBad
      have answeredBad := returns_query asks
      have formulasBad : two.solver.formulas = [checker.initial, bad] := by
        simp [Solver.formulas, assertionsBad, kept, assertions, Solver.push, idle]
      cases finding with
      | stopped reason =>
          obtain ⟨rfl, -⟩ := (Run.returns_pure_iff ..).mp ended
          exact ⟨answeredBad.sound, about, by simp⟩
      | unsatisfiable =>
          obtain ⟨rfl, rfl⟩ := (Run.returns_pure_iff ..).mp ended
          refine ⟨?_, about, fun _ =>
            safeBelow_one wellFormed about unfolded formulasBad consistentBad answeredBad⟩
          rw [← closed]
          exact Solver.assertions_closeScope ((answeredBad.scopes_eq (by simp)).trans
            (scopesBad.trans (keptScopes.trans (scopes.trans (Solver.scopes_push idle)))))
      | satisfiable =>
          obtain ⟨counterexample, _, shown, ended⟩ := (Run.returns_bind_iff ..).mp ended
          obtain ⟨rfl, -⟩ := (Run.returns_pure_iff ..).mp ended
          refine ⟨fun ordinary => ?_, about, by simp⟩
          obtain ⟨model, found, states, upTo, witnessed⟩ := witnesses_of_initial_sat wellFormed
            about unfolded formulasBad consistentBad answeredBad
          obtain ⟨rfl, -⟩ := (returns_witness_iff (ordinary ▸ found) upTo).mp shown
          exact ⟨_, states, by rw [witnessed.length], witnessed⟩

/-! ## Whole checks -/

theorem returns_freshPattern (returned : freshPattern.Returns before pattern after) :
    pattern.first ≠ pattern.second ∧
      (after.solver.owns pattern.first = true ∧ after.solver.owns pattern.second = true) ∧
      after.solver.assertions = before.solver.assertions := by
  obtain ⟨-, rfl, rfl⟩ := returns_freshPattern_iff.mp returned
  have older : before.solver.nextMarker < before.solver.nextMarker + 1 + 1 := by omega
  simp [Solver.createMarker, Solver.owns, older]

theorem check_cases (wellFormed : checker.WellFormed) {solver : Solver}
    (idle : solver.assertions = []) {result : SafetyResult State}
    (checked : (checker.check surroundings solver).1 = .ok result) :
    (∃ before after, before.solver.assertions = [] ∧
      (checker.searchInitial surroundings).Returns before (some result.verdict) after) ∨
    ∃ pattern before after, checker.StateFormula checker.initial ∧
      pattern.first ≠ pattern.second ∧ checker.SafeBelow 1 ∧ before.solver.assertions = [] ∧
      (checker.deepen surroundings pattern (checker.bound.getD depthLimit)
        (.start checker.base)).Returns before result.verdict after := by
  obtain ⟨concluded, concludes, -⟩ := exists_verdict_of_check checked
  obtain ⟨pattern, fresh, made, ended⟩ := verdict_cases concludes
  obtain ⟨distinct, -, kept⟩ := returns_freshPattern made
  rcases ended with searches | ⟨searched, searches, deepens⟩
  · exact .inl ⟨fresh, concluded, kept.trans idle, searches⟩
  · obtain ⟨sound, about, safe⟩ := returns_searchInitial wellFormed (kept.trans idle) searches
    exact .inr ⟨pattern, searched, concluded, about, distinct, safe rfl, sound, deepens⟩

/-- Every verdict of a check that starts without assertions is sound. -/
theorem sound_of_check (wellFormed : checker.WellFormed) {solver : Solver}
    (idle : solver.assertions = []) {result : SafetyResult State}
    (checked : (checker.check surroundings solver).1 = .ok result) :
    checker.Sound surroundings result.verdict := by
  rcases check_cases wellFormed idle checked with
    ⟨before, after, idleBefore, searches⟩ |
    ⟨pattern, before, after, about, distinct, safe, idleBefore, deepens⟩
  · exact (returns_searchInitial wellFormed idleBefore searches).1
  · refine returns_deepen wellFormed about distinct .start (fun bound bounded => ?_) safe
      idleBefore deepens
    rw [bounded]
    exact Nat.zero_add bound

theorem unviolated_of_safe (wellFormed : checker.WellFormed) {solver : Solver}
    (idle : solver.assertions = []) {result : SafetyResult State}
    (checked : (checker.check surroundings solver).1 = .ok result) {proof : SafetyProof}
    (safe : result.verdict = .safe proof) (state : checker.SystemState)
    (reachable : state.Reachable) : ¬ state.Violates := by
  have sound := sound_of_check wellFormed idle checked
  rw [safe] at sound
  obtain ⟨run, length, isRun, rfl⟩ := reachable
  exact sound.not_violates isRun

end Checker

/-! ## Verdicts that are computed -/

namespace Verdict

variable {State : Type} {verdict : Verdict State}

theorem proof?_eq_some_iff {proof : SafetyProof} :
    verdict.proof? = some proof ↔ verdict = .safe proof := by
  cases verdict <;> simp [proof?]

theorem counterexample?_eq_some_iff {counterexample : Counterexample State} :
    verdict.counterexample? = some counterexample ↔ verdict = .violated counterexample := by
  cases verdict <;> simp [counterexample?]

theorem reason?_eq_some_iff {reason : UnknownReason} :
    verdict.reason? = some reason ↔ verdict = .unknown reason := by
  cases verdict <;> simp [reason?]

end Verdict

theorem SafetyResult.exists_of_any {State α : Type}
    {outcome : Except CheckError (SafetyResult State)} {view : Verdict State → Option α}
    {test : α → Bool} {make : α → Verdict State}
    (found : (outcome.toOption.any fun result => (view result.verdict).any test) = true)
    (viewed : ∀ {verdict shown}, view verdict = some shown ↔ verdict = make shown) :
    ∃ result shown, outcome = .ok result ∧ result.verdict = make shown ∧ test shown = true := by
  obtain ⟨result, computed, seen⟩ := Outcome.any_toOption_iff.mp found
  obtain ⟨shown, same, passes⟩ := (Option.any_eq_true ..).mp seen
  exact ⟨result, shown, computed, viewed.mp same, passes⟩

end SymbolicSafety
