import SymbolicSafety.Proofs.CheckerRun

namespace SymbolicSafety

/-! What the loops of a search do at each step. The loop that refines an image has a
limit, which makes no difference to what it returns. So a relation without a limit
describes it, and all that is said about the loop is said by induction on that. -/

namespace Checker

variable {State : Type} {checker : Checker State} {surroundings : Surroundings}
  {before after : RunState} {pattern : Pattern} {trace : Trace}

/-! ## Refining an image -/

section Loop

variable (checker surroundings pattern trace)

def probe (disjuncts : Nat) (new : Formula) : Run (Attempt Unit) := do
  Run.countRefinement
  Run.log .debug ("Image refined at bound " ++ trace.steps.length.repr ++ ": "
    ++ (disjuncts + 1).repr ++ " disjunct(s)")
  checker.attempt surroundings pattern (checker.unrolling trace new)
    (Run.log .debug ("Refined image reaches a bad state at bound " ++ trace.steps.length.repr
      ++ ", unrolling further"))

def resume (fuel : Nat) (image : Formula) (disjuncts : Nat) (new : Formula) :
    Attempt Unit → Run (Option (Verdict State))
  | .reached () => pure none
  | .stopped reason => pure (some (.unknown reason))
  | .excluded next => checker.refine surroundings pattern trace fuel (.mkOr [image, new])
      (disjuncts + 1) next

/-- From an image, its number of disjuncts and the new states the loop comes to a
result, after it has refined the image to each of these images in turn. -/
inductive Refines : RunState → Formula → Nat → Formula → List Formula →
    Option (Verdict State) → RunState → Prop where
  | closed {before after : RunState} {image new : Formula} {disjuncts : Nat} :
      (checker.addsStates surroundings image new).Returns before .unsatisfiable after →
      Refines before image disjuncts new []
        (some (.safe ⟨trace.steps.length, disjuncts, image⟩)) after
  | interrupted {before after : RunState} {image new : Formula} {disjuncts : Nat}
      {reason : UnknownReason} :
      (checker.addsStates surroundings image new).Returns before (.stopped reason) after →
      Refines before image disjuncts new [] (some (.unknown reason)) after
  | reached {before asked after : RunState} {image new : Formula} {disjuncts : Nat} :
      (checker.addsStates surroundings image new).Returns before .satisfiable asked →
      (checker.probe surroundings pattern trace disjuncts new).Returns asked (.reached ()) after →
      Refines before image disjuncts new [.mkOr [image, new]] none after
  | stopped {before asked after : RunState} {image new : Formula} {disjuncts : Nat}
      {reason : UnknownReason} :
      (checker.addsStates surroundings image new).Returns before .satisfiable asked →
      (checker.probe surroundings pattern trace disjuncts new).Returns asked (.stopped reason)
        after →
      Refines before image disjuncts new [.mkOr [image, new]] (some (.unknown reason)) after
  | grown {before asked probed after : RunState} {image new next : Formula} {disjuncts : Nat}
      {images : List Formula} {result : Option (Verdict State)} :
      (checker.addsStates surroundings image new).Returns before .satisfiable asked →
      (checker.probe surroundings pattern trace disjuncts new).Returns asked (.excluded next)
        probed →
      Refines probed (.mkOr [image, new]) (disjuncts + 1) next images result after →
      Refines before image disjuncts new (.mkOr [image, new] :: images) result after

end Loop

variable {fuel disjuncts : Nat} {image new : Formula} {images : List Formula}
  {result : Option (Verdict State)}

theorem returns_refine_iff {asked : RunState}
    (added : (checker.addsStates surroundings image new).Returns before .satisfiable asked) :
    (checker.refine surroundings pattern trace (fuel + 1) image disjuncts new).Returns
        before result after ↔
      ∃ outcome probed,
        (checker.probe surroundings pattern trace disjuncts new).Returns asked outcome probed ∧
        (checker.resume surroundings pattern trace fuel image disjuncts new outcome).Returns
          probed result after := by
  rw [refine, Run.returns_bind_iff]
  constructor
  · rintro ⟨finding, middle, added', ended⟩
    obtain ⟨same, rfl⟩ := Prod.mk.inj (added.symm.trans added')
    obtain rfl := Except.ok.inj same
    simp only [Run.returns_bind_iff] at ended
    obtain ⟨_, counted, counts, _, noted, notes, outcome, probed, attempt, ended⟩ := ended
    refine ⟨outcome, probed, ?_, by cases outcome <;> exact ended⟩
    simp only [probe, Run.returns_bind_iff]
    exact ⟨_, counted, counts, _, noted, notes, attempt⟩
  · rintro ⟨outcome, probed, probes, ended⟩
    simp only [probe, Run.returns_bind_iff] at probes
    obtain ⟨_, counted, counts, _, noted, notes, attempt⟩ := probes
    refine ⟨_, asked, added, ?_⟩
    simp only [Run.returns_bind_iff]
    exact ⟨_, counted, counts, _, noted, notes, outcome, probed, attempt,
      by cases outcome <;> exact ended⟩

/-- What the loop does within its limit it does without one. -/
theorem exists_refines_of_returns
    (returned : (checker.refine surroundings pattern trace fuel image disjuncts new).Returns
      before result after) :
    ∃ images, checker.Refines surroundings pattern trace before image disjuncts new images
      result after := by
  induction fuel generalizing image disjuncts new before with
  | zero => simp [refine] at returned
  | succ fuel induction =>
      obtain ⟨finding, asked, added, ended⟩ := (Run.returns_bind_iff ..).mp returned
      cases finding with
      | unsatisfiable =>
          obtain ⟨rfl, rfl⟩ := (Run.returns_pure_iff ..).mp ended
          exact ⟨[], .closed added⟩
      | stopped reason =>
          obtain ⟨rfl, rfl⟩ := (Run.returns_pure_iff ..).mp ended
          exact ⟨[], .interrupted added⟩
      | satisfiable =>
          obtain ⟨outcome, probed, probes, resumes⟩ := (returns_refine_iff added).mp returned
          cases outcome with
          | reached found =>
              obtain ⟨rfl, rfl⟩ := (Run.returns_pure_iff ..).mp resumes
              exact ⟨_, .reached added probes⟩
          | stopped reason =>
              obtain ⟨rfl, rfl⟩ := (Run.returns_pure_iff ..).mp resumes
              exact ⟨_, .stopped added probes⟩
          | excluded next =>
              obtain ⟨images, refines⟩ := induction resumes
              exact ⟨_, .grown added probes refines⟩

theorem attempts_of_probe {asked probed : RunState} {outcome : Attempt Unit}
    (idle : before.solver.assertions = [])
    (added : (checker.addsStates surroundings image new).Returns before .satisfiable asked)
    (probes : (checker.probe surroundings pattern trace disjuncts new).Returns asked outcome
      probed) :
    ∃ noted message, noted.solver.assertions = [] ∧
      (checker.attempt surroundings pattern (checker.unrolling trace new)
        (Run.log .debug message)).Returns noted outcome probed := by
  obtain ⟨-, -, -, -, -, idleAsked⟩ := returns_addsStates idle added
  simp only [probe, Run.countRefinement, Run.returns_bind_iff, Run.returns_modify_iff,
    Run.returns_log_iff] at probes
  obtain ⟨_, counted, counts, _, noted, notes, attempt⟩ := probes
  refine ⟨noted, _, ?_, attempt⟩
  rw [← notes, ← counts]
  exact idleAsked (by simp)

theorem Refines.returns_refine
    (refines : checker.Refines surroundings pattern trace before image disjuncts new images
      result after) (enough : images.length < fuel) :
    (checker.refine surroundings pattern trace fuel image disjuncts new).Returns
      before result after := by
  obtain ⟨fuel, rfl⟩ := Nat.exists_eq_add_one_of_ne_zero (Nat.ne_zero_of_lt enough)
  induction refines generalizing fuel with
  | closed added | interrupted added =>
      rw [refine, Run.returns_bind_iff]
      exact ⟨_, _, added, (Run.returns_pure_iff ..).mpr ⟨rfl, rfl⟩⟩
  | reached added probes | stopped added probes =>
      exact (returns_refine_iff added).mpr
        ⟨_, _, probes, (Run.returns_pure_iff ..).mpr ⟨rfl, rfl⟩⟩
  | grown added probes _ induction =>
      obtain ⟨fuel, rfl⟩ := Nat.exists_eq_add_one_of_ne_zero
        (Nat.ne_zero_of_lt (Nat.lt_of_succ_lt_succ enough))
      exact (returns_refine_iff added).mpr
        ⟨_, _, probes, induction fuel (Nat.lt_of_succ_lt_succ enough)⟩

/-! ## One depth -/

/-- A search at one depth looks for a bad state behind the initial states. If there
is none, they are the first image to be refined. -/
theorem searchAt_cases
    (returned : (checker.searchAt surroundings pattern trace).Returns before result after) :
    let attempt := checker.attempt surroundings pattern (checker.unrolling trace checker.initial)
      (checker.witness surroundings trace.indexings)
    (∃ reason, result = some (.unknown reason) ∧ attempt.Returns before (.stopped reason) after) ∨
    (∃ counterexample, result = some (.violated counterexample) ∧
      attempt.Returns before (.reached counterexample) after) ∨
    ∃ new attempted images, attempt.Returns before (.excluded new) attempted ∧
      checker.Refines surroundings pattern trace attempted checker.initial 1 new images result
        after := by
  rw [searchAt, Run.returns_bind_iff] at returned
  obtain ⟨outcome, attempted, attempt, ended⟩ := returned
  cases outcome with
  | stopped reason =>
      obtain ⟨rfl, rfl⟩ := (Run.returns_pure_iff ..).mp ended
      exact .inl ⟨reason, rfl, attempt⟩
  | reached counterexample =>
      obtain ⟨rfl, rfl⟩ := (Run.returns_pure_iff ..).mp ended
      exact .inr (.inl ⟨counterexample, rfl, attempt⟩)
  | excluded new =>
      simp only [Run.returns_bind_iff, Run.returns_get_iff, and_assoc, exists_and_left,
        exists_eq_left'] at ended
      obtain ⟨images, refines⟩ := exists_refines_of_returns ended
      exact .inr (.inr ⟨new, attempted, images, attempt, refines⟩)

/-! ## Growing depths -/

theorem returns_extend (unrolls : checker.Unrolls trace) {next : Trace}
    (returned : (checker.extend trace).Returns before next after) :
    checker.Unrolls next ∧ next.steps.length = trace.steps.length + 1 ∧ before = after := by
  unfold extend at returned
  split at returned
  next reached advanced =>
    simp only [Run.returns_bind_iff, Run.returns_unfold_iff, Run.returns_pure_iff] at returned
    obtain ⟨step, _, ⟨unfoldedStep, rfl⟩, bad, _, ⟨unfoldedBad, rfl⟩, rfl, rfl⟩ := returned
    exact ⟨unrolls.extend advanced unfoldedStep unfoldedBad, by simp, rfl⟩
  next => simp at returned

variable {verdict : Verdict State}

theorem returns_deepen_zero
    (returned : (checker.deepen surroundings pattern 0 trace).Returns before verdict after) :
    (∃ bound, checker.bound = some bound) ∧ verdict = .unknown (.boundReached trace.steps.length) ∧
      before = after := by
  simp only [deepen] at returned
  split at returned
  next bound bounded =>
    obtain ⟨rfl, rfl⟩ := (Run.returns_pure_iff ..).mp returned
    exact ⟨⟨bound, bounded⟩, rfl, rfl⟩
  next => simp at returned

theorem deepen_succ_cases (unrolls : checker.Unrolls trace)
    (returned : (checker.deepen surroundings pattern (fuel + 1) trace).Returns before verdict
      after) :
    ∃ next entered, checker.Unrolls next ∧ next.steps.length = trace.steps.length + 1 ∧
      entered.solver.assertions = before.solver.assertions ∧
      entered.statistics = { before.statistics with iterations := next.steps.length } ∧
      ∃ result searched,
        (checker.searchAt surroundings pattern next).Returns entered result searched ∧
        (result = some verdict ∧ searched = after ∨
          result = none ∧
            (checker.deepen surroundings pattern fuel next).Returns searched verdict after) := by
  simp only [deepen, Run.enterIteration, Run.returns_bind_iff, Run.returns_modify_iff,
    Run.returns_log_iff] at returned
  obtain ⟨_, counted, counts, _, entered, notes, next, extended, extends', result, searched,
    searches, ended⟩ := returned
  obtain ⟨unrollsNext, length, rfl⟩ := returns_extend unrolls extends'
  refine ⟨next, entered, unrollsNext, length, ?_, ?_, result, searched, searches, ?_⟩
  · rw [← notes, ← counts]
    rfl
  · rw [← notes, ← counts, length]
  · cases result with
    | some found =>
        obtain ⟨rfl, rfl⟩ := (Run.returns_pure_iff ..).mp ended
        exact .inl ⟨rfl, rfl⟩
    | none => exact .inr ⟨rfl, ended⟩

/-! ## Whole checks -/

theorem verdict_cases
    (returned : (checker.verdict surroundings).Returns before verdict after) :
    ∃ pattern fresh, freshPattern.Returns before pattern fresh ∧
      ((checker.searchInitial surroundings).Returns fresh (some verdict) after ∨
        ∃ searched, (checker.searchInitial surroundings).Returns fresh none searched ∧
          (checker.deepen surroundings pattern (checker.bound.getD depthLimit)
            (.start checker.base)).Returns searched verdict after) := by
  simp only [Checker.verdict, Run.returns_bind_iff, returns_setDeadline_iff] at returned
  obtain ⟨_, _, ⟨-, rfl⟩, pattern, fresh, made, found, searched, searches, ended⟩ := returned
  refine ⟨pattern, fresh, made, ?_⟩
  cases found with
  | some verdict =>
      obtain ⟨rfl, rfl⟩ := (Run.returns_pure_iff ..).mp ended
      exact .inl searches
  | none => exact .inr ⟨searched, searches, ended⟩

theorem exists_verdict_of_check {solver : Solver} {result : SafetyResult State}
    (checked : (checker.check surroundings solver).1 = .ok result) :
    ∃ concluded, (checker.verdict surroundings).Returns { solver } result.verdict concluded ∧
      result.statistics.iterations = concluded.statistics.iterations ∧
      result.statistics.refinements = concluded.statistics.refinements := by
  have returned : (checker.run surroundings).Returns { solver } result
      (checker.check surroundings solver).2 := Prod.ext checked rfl
  simp only [run, Run.returns_bind_iff, Run.returns_get_iff, Run.returns_log_iff,
    Run.returns_pure_iff] at returned
  obtain ⟨verdict, concluded, concludes, _, _, ⟨rfl, rfl⟩, _, _, -, rfl, -⟩ := returned
  exact ⟨concluded, concludes, rfl, rfl⟩

end Checker

end SymbolicSafety
