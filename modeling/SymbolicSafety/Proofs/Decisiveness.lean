import SymbolicSafety.Proofs.Progress

namespace SymbolicSafety

/-! Depths at which a search comes to a verdict. It has to go deeper only if the
new states of a growing image lead into a bad one. Where all images of a trace
have a property that excludes this, the search ends, and a safe system is found
to be safe. -/

namespace Checker

variable {State : Type} {checker : Checker State} {surroundings : Surroundings}
  {before after : RunState} {pattern : Pattern} {trace : Trace} {image new : Formula}
  {limit : Nat}

theorem exists_solution_of_reached (wellFormed : checker.WellFormed)
    (unrolls : checker.Unrolls trace) (positive : 0 < trace.steps.length)
    (distinct : pattern.first ≠ pattern.second) (about : checker.StateFormula new) {α : Type}
    {onReached : Run α} {found : α} (idle : before.solver.assertions = [])
    (returned : (checker.attempt surroundings pattern (checker.unrolling trace new)
      onReached).Returns before (.reached found) after) :
    ∃ assignment, checker.Legal assignment ∧
      (checker.unrolling trace new).head.Holds assignment ∧
      (checker.unrolling trace new).tail.Holds assignment := by
  obtain ⟨posed, asked, -, poses, sat, -, -⟩ := attempt_reached idle distinct returned
  have unfolded := unrolls.opening trace.steps[0] (by simp)
  obtain ⟨model, -, holds, -⟩ := Solver.exists_holds_of_check poses.consistent.assertable
    (poses.proper wellFormed.toWellTyped unrolls about.speaks)
    (poses.decided wellFormed unrolls unfolded about) sat
  exact ⟨model.completed, legal_completed wellFormed.toWellTyped model,
    poses.holds_formulas_iff.mp fun formula member => (holds formula member).2⟩

variable (checker) in
/-- A property that all images of a trace have, and with which the trace does not
lead into bad states. -/
structure Shields (trace : Trace) (good : Formula → Prop) : Prop where
  initial : ∀ image, checker.Derives trace checker.initial image → good image
  kept : ∀ new image, checker.StateFormula new → good new → checker.Derives trace new image →
    good image
  safe : ∀ new, checker.StateFormula new → good new → ∀ assignment, checker.Legal assignment →
    (checker.unrolling trace new).head.Holds assignment →
    ¬ (checker.unrolling trace new).tail.Holds assignment

variable (checker) in
/-- A search at this depth does not have to go deeper. -/
def Decisive (depth : Nat) : Prop :=
  ∀ trace, checker.Unrolls trace → trace.steps.length = depth → ∃ good, checker.Shields trace good

/-! ## Searching -/

def Settles (limit : Nat) : Verdict State → Prop
  | .safe proof => proof.depth ≤ limit
  | .violated _ => True
  | .unknown reason => Interrupts reason

def SettlesUnless (deeper : Prop) (limit : Nat) : Option (Verdict State) → Prop
  | some verdict => Settles limit verdict
  | none => deeper

section Depths

variable (wellFormed : checker.WellFormed) (unrolls : checker.Unrolls trace)
  (positive : 0 < trace.steps.length) (distinct : pattern.first ≠ pattern.second)
  (within : trace.steps.length ≤ limit) {result : Option (Verdict State)}
include wellFormed unrolls positive distinct within

theorem Refines.settles (about : checker.StateFormula new) {disjuncts : Nat}
    {images : List Formula} {deeper : Prop}
    (shielded : ¬ deeper → ∃ good, checker.Shields trace good ∧ good new)
    (idle : before.solver.assertions = [])
    (refines : checker.Refines surroundings pattern trace before image disjuncts new images result
      after) : SettlesUnless deeper limit result := by
  induction refines with
  | closed => exact within
  | interrupted added =>
      obtain ⟨posed, answered, -, -, answer, -⟩ := returns_addsStates idle added
      exact answer
  | reached added probes =>
      obtain ⟨noted, message, idleNoted, attempt⟩ := attempts_of_probe idle added probes
      apply Classical.byContradiction
      intro final
      obtain ⟨good, shields, isGood⟩ := shielded final
      obtain ⟨assignment, legal, holdsHead, holdsTail⟩ := exists_solution_of_reached
        wellFormed unrolls positive distinct about idleNoted attempt
      exact shields.safe _ about isGood assignment legal holdsHead holdsTail
  | stopped added probes =>
      obtain ⟨noted, message, idleNoted, attempt⟩ := attempts_of_probe idle added probes
      exact attempt_stopped idleNoted distinct attempt
  | grown added probes _ induction =>
      obtain ⟨noted, message, idleNoted, attempt⟩ := attempts_of_probe idle added probes
      obtain ⟨idleNext, derives⟩ := attempt_derives idleNoted distinct attempt
      refine induction (derives.excludes wellFormed unrolls positive about).about
        (fun final => ?_) idleNext
      obtain ⟨good, shields, isGood⟩ := shielded final
      exact ⟨good, shields, shields.kept _ _ about isGood derives⟩

theorem settles_searchAt (about : checker.StateFormula checker.initial)
    (decisive : checker.Decisive limit) (idle : before.solver.assertions = [])
    (returned : (checker.searchAt surroundings pattern trace).Returns before result after) :
    SettlesUnless (trace.steps.length < limit) limit result := by
  rcases searchAt_cases returned with
    ⟨reason, rfl, attempt⟩ | ⟨counterexample, rfl, attempt⟩ |
    ⟨new, attempted, images, attempt, refines⟩
  · exact attempt_stopped idle distinct attempt
  · trivial
  · obtain ⟨idleNext, derives⟩ := attempt_derives idle distinct attempt
    refine refines.settles wellFormed unrolls positive distinct within
      (derives.excludes wellFormed unrolls positive about).about (fun final => ?_) idleNext
    obtain ⟨good, shields⟩ := decisive trace unrolls (by omega)
    exact ⟨good, shields, shields.initial new derives⟩

end Depths

section Deepening

variable (wellFormed : checker.WellFormed) (about : checker.StateFormula checker.initial)
  (decisive : checker.Decisive limit) (distinct : pattern.first ≠ pattern.second) {fuel : Nat}
  (unrolls : checker.Unrolls trace) (shallow : trace.steps.length < limit)
  (enough : limit ≤ trace.steps.length + fuel) (idle : before.solver.assertions = [])
include wellFormed about decisive distinct unrolls shallow enough idle

theorem settles_deepen {verdict : Verdict State}
    (returned : (checker.deepen surroundings pattern fuel trace).Returns before verdict after) :
    Settles limit verdict := by
  induction fuel generalizing trace before with
  | zero => exact absurd shallow (Nat.not_lt.mpr enough)
  | succ fuel induction =>
      obtain ⟨next, entered, unrollsNext, length, kept, -, result, searched, searches, ended⟩ :=
        deepen_succ_cases unrolls returned
      have idleEntered := kept.trans idle
      have settles := settles_searchAt wellFormed unrollsNext (by omega) distinct (by omega) about
        decisive idleEntered searches
      rcases ended with ⟨rfl, rfl⟩ | ⟨rfl, continues⟩
      · exact settles
      · have restored := leaves_searchAt.of_returns searches
        exact induction unrollsNext settles (by omega) (restored.assertions.trans idleEntered)
          continues

theorem ends_deepen_of_decisive (ordinary : surroundings.model = Solver.model)
    (owned : before.solver.OwnsBoth pattern) :
    (checker.deepen surroundings pattern fuel trace).Ends (checker.Excuses limit) before := by
  induction fuel generalizing trace before with
  | zero => exact absurd shallow (Nat.not_lt.mpr enough)
  | succ fuel induction =>
      refine ends_deepen_succ wellFormed.toWellTyped about.primeFree ordinary distinct shallow
        unrolls idle owned
        fun next entered searched unrollsNext length idleEntered searches idleNext ownedNext => ?_
      have settles := settles_searchAt wellFormed unrollsNext (by omega) distinct (by omega) about
        decisive idleEntered searches
      exact induction unrollsNext settles (by omega) idleNext ownedNext

end Deepening

/-! ## Whole checks -/

theorem settles_searchInitial {verdict : Verdict State}
    (returned : (checker.searchInitial surroundings).Returns before (some verdict) after) :
    Settles limit verdict := by
  simp only [searchInitial, Run.returns_inScope_iff, Run.returns_bind_iff] at returned
  obtain ⟨inner, ⟨_, one, -, finding, asked, queried, ended⟩, -⟩ := returned
  have answered := returns_query queried
  cases finding with
  | stopped reason =>
      obtain ⟨same, -⟩ := (Run.returns_pure_iff ..).mp ended
      exact Option.some.inj same ▸ answered
  | unsatisfiable =>
      obtain ⟨same, -⟩ := (Run.returns_pure_iff ..).mp ended
      exact Option.some.inj same ▸ Nat.zero_le limit
  | satisfiable =>
      simp only [Run.returns_bind_iff] at ended
      obtain ⟨bad, _, -, _, two, -, finding, answer, asks, ended⟩ := ended
      have answeredBad := returns_query asks
      cases finding with
      | stopped reason =>
          obtain ⟨same, -⟩ := (Run.returns_pure_iff ..).mp ended
          exact Option.some.inj same ▸ answeredBad
      | unsatisfiable => simp at ended
      | satisfiable =>
          obtain ⟨counterexample, _, -, ended⟩ := (Run.returns_bind_iff ..).mp ended
          obtain ⟨same, -⟩ := (Run.returns_pure_iff ..).mp ended
          exact Option.some.inj same ▸ trivial

section Checks

variable (wellFormed : checker.WellFormed) {solver : Solver} (idle : solver.assertions = [])
  (positive : 0 < limit) (enough : limit ≤ checker.bound.getD depthLimit)
  (decisive : checker.Decisive limit)
include wellFormed idle positive enough decisive

theorem settles_check {result : SafetyResult State}
    (checked : (checker.check surroundings solver).1 = .ok result) :
    Settles limit result.verdict := by
  rcases check_cases wellFormed idle checked with
    ⟨before, after, -, searches⟩ |
    ⟨pattern, before, after, about, distinct, -, idleBefore, deepens⟩
  · exact settles_searchInitial searches
  · exact settles_deepen wellFormed about decisive distinct .start positive
      (by simpa [Trace.start] using enough) idleBefore deepens

variable (starts : checker.CanStart surroundings solver) (free : checker.initial.PrimeFree)
include starts free

theorem check_ends_of_decisive (ordinary : surroundings.model = Solver.model) :
    (∃ result, (checker.check surroundings solver).1 = .ok result) ∨
      ¬ checker.Fits limit ∧ (checker.check surroundings solver).1 = .error .versionOverflow := by
  have ends := check_ends_of_deepen wellFormed.toWellTyped free ordinary idle starts
    fun pattern before distinct idleBefore owned =>
      ends_deepen_of_decisive wellFormed (.initial wellFormed free) decisive distinct .start
        positive (by simpa [Trace.start] using enough) idleBefore ordinary owned
  refine ends.imp_right ?_
  rintro ⟨error, excused, failed⟩
  obtain ⟨rfl, misfit⟩ := excused.eq_versionOverflow wellFormed
  exact ⟨misfit, failed⟩

/-- A check that can start and may search at a decisive depth ends with a verdict. Unless it is
interrupted, it proves a safe system safe, and gets no deeper. -/
theorem safe_of_decisive (ordinary : surroundings.model = Solver.model)
    (versions : checker.Fits limit ∨
      (checker.check surroundings solver).1 ≠ .error .versionOverflow)
    (safe : ∀ state : checker.SystemState, state.Reachable → ¬ state.Violates) :
    ∃ result, (checker.check surroundings solver).1 = .ok result ∧
      ((∀ reason ∈ [UnknownReason.inconclusive, .timeout, .cancelled],
          result.verdict ≠ .unknown reason) →
        ∃ proof, result.verdict = .safe proof ∧ proof.depth ≤ limit) := by
  rcases check_ends_of_decisive wellFormed idle positive enough decisive starts free ordinary with
    ⟨result, checked⟩ | ⟨misfit, failed⟩
  · refine ⟨result, checked, fun uninterrupted => ?_⟩
    have sound := sound_of_check wellFormed idle checked
    have settles := settles_check wellFormed idle positive enough decisive checked
    cases verdict : result.verdict with
    | safe proof =>
        rw [verdict] at settles
        exact ⟨proof, rfl, settles⟩
    | violated counterexample =>
        rw [verdict] at sound
        obtain ⟨depth, states, -, witnesses⟩ := sound ordinary
        obtain ⟨run, isRun, violates, -⟩ := witnesses.follows
        exact absurd violates (safe (run depth) ⟨run, depth, isRun, rfl⟩)
    | unknown reason =>
        rw [verdict] at settles
        cases reason with
        | boundReached bound => exact absurd rfl (settles bound)
        | inconclusive | timeout | cancelled => exact absurd verdict (uninterrupted _ (by simp))
  · rcases versions with fits | present
    · exact absurd fits misfit
    · exact absurd failed present

end Checks

end Checker

end SymbolicSafety
