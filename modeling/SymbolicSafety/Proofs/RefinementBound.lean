import Mathlib.Data.List.Chain
import SymbolicSafety.Proofs.Saturation
import SymbolicSafety.Proofs.Soundness

namespace SymbolicSafety

/-! How often an image is refined. Whenever new states are found, the image takes
in a state that it did not contain. So refining it comes to an end, whatever limit
there is, and at each depth it is refined no more often than there are states. -/

/-! ## Computations that do not count -/

structure RunState.SameTally (state other : RunState) : Prop where
  iterations : state.statistics.iterations = other.statistics.iterations
  refinements : state.statistics.refinements = other.statistics.refinements

theorem RunState.SameTally.trans {first second third : RunState} (later : third.SameTally second)
    (earlier : second.SameTally first) : third.SameTally first :=
  ⟨later.iterations.trans earlier.iterations, later.refinements.trans earlier.refinements⟩

namespace Run

variable {α β : Type} {before after : RunState}

def Uncounted (body : Run α) (before : RunState) : Prop :=
  (body.outcome before).2.SameTally before

theorem Uncounted.of_returns {body : Run α} {result : α} (uncounted : body.Uncounted before)
    (returned : body.Returns before result after) : after.SameTally before := by
  rw [Uncounted, returned] at uncounted
  exact uncounted

theorem Uncounted.bind {body : Run α} {next : α → Run β} (first : body.Uncounted before)
    (second : ∀ value middle, body.Returns before value middle → (next value).Uncounted middle) :
    (body >>= next).Uncounted before := by
  rw [Uncounted, outcome_bind]
  rcases ended : body.outcome before with ⟨error | value, middle⟩
  · rw [Uncounted, ended] at first
    exact first
  · exact (second value middle ended).trans (first.of_returns ended)

theorem Uncounted.inScope {body : Run α}
    (uncounted : body.Uncounted { before with solver := before.solver.push }) :
    (inScope body).Uncounted before :=
  ⟨uncounted.iterations, uncounted.refinements⟩

theorem uncounted_pure (value : α) : (pure value : Run α).Uncounted before := ⟨rfl, rfl⟩

theorem uncounted_throw (error : CheckError) : (throw error : Run α).Uncounted before := ⟨rfl, rfl⟩

theorem uncounted_lift (ended : Except CheckError α) : (liftM ended : Run α).Uncounted before :=
  ⟨rfl, rfl⟩

theorem uncounted_get : (get : Run RunState).Uncounted before := ⟨rfl, rfl⟩

theorem uncounted_modify {change : RunState → RunState} (same : (change before).SameTally before) :
    (modify change : Run PUnit).Uncounted before :=
  same

theorem uncounted_log (level : LogLevel) (message : String) :
    (log level message).Uncounted before :=
  uncounted_modify ⟨rfl, rfl⟩

theorem uncounted_unfold (indexing : Indexing) (formula : Formula) :
    (unfold indexing formula).Uncounted before := by
  unfold unfold
  split
  · exact uncounted_pure _
  · exact uncounted_throw _

theorem uncounted_fold (indexing : Indexing) (formula : Formula) :
    (fold indexing formula).Uncounted before := by
  unfold fold
  split
  · exact uncounted_pure _
  · exact uncounted_throw _

theorem uncounted_solverStep (step : Solver → Except SolverError (α × Solver)) :
    (solverStep step).Uncounted before := by
  have got : (get : Run RunState).outcome before = (.ok before, before) := rfl
  simp only [Uncounted, solverStep, outcome_bind, got]
  split <;> exact ⟨rfl, rfl⟩

end Run

namespace Checker

variable {State : Type} {checker : Checker State} {surroundings : Surroundings}
  {before after : RunState} {pattern : Pattern} {trace : Trace}

theorem uncounted_query : (checker.query surroundings).Uncounted before := by
  refine Run.uncounted_get.bind fun state middle _ => ?_
  split
  · exact Run.uncounted_pure _
  · refine (Run.uncounted_modify ⟨rfl, rfl⟩).bind fun _ _ _ => ?_
    refine (Run.uncounted_solverStep _).bind fun status _ _ => ?_
    cases status <;> exact Run.uncounted_pure _

theorem uncounted_witness (indexings : List Indexing) :
    (checker.witness surroundings indexings).Uncounted before := by
  refine Run.uncounted_get.bind fun state middle _ => ?_
  split
  · exact (Run.uncounted_log ..).bind fun _ _ _ => Run.uncounted_pure _
  · exact (Run.uncounted_lift _).bind fun _ _ _ => Run.uncounted_pure _

theorem uncounted_nextImage : (checker.nextImage pattern).Uncounted before := by
  refine Run.uncounted_get.bind fun state middle got => ?_
  obtain ⟨rfl, rfl⟩ := (Run.returns_get_iff ..).mp got
  split
  · exact (Run.uncounted_log ..).bind fun _ _ _ => Run.uncounted_pure _
  · exact Run.uncounted_throw _
  next interpolant answered _ =>
    have set : (set { before with solver := answered } : Run PUnit).Uncounted before := ⟨rfl, rfl⟩
    refine set.bind fun _ _ _ => ?_
    split
    · exact (Run.uncounted_fold ..).bind fun _ _ _ =>
        (Run.uncounted_unfold ..).bind fun _ _ _ => Run.uncounted_pure _
    · exact Run.uncounted_throw _

theorem uncounted_attempt {α : Type} {unrolling : Unrolling} {onReached : Run α}
    (shown : ∀ asked, onReached.Uncounted asked) :
    (checker.attempt surroundings pattern unrolling onReached).Uncounted before := by
  refine Run.Uncounted.inScope ?_
  refine (Run.uncounted_solverStep _).bind fun _ _ _ =>
    (Run.uncounted_solverStep _).bind fun _ _ _ => ?_
  refine uncounted_query.bind fun finding asked _ => ?_
  cases finding with
  | satisfiable => exact (shown asked).bind fun _ _ _ => Run.uncounted_pure _
  | stopped reason => exact Run.uncounted_pure _
  | unsatisfiable =>
      refine uncounted_nextImage.bind fun result _ _ => ?_
      cases result <;> exact Run.uncounted_pure _

theorem uncounted_addsStates (image new : Formula) :
    (checker.addsStates surroundings image new).Uncounted before :=
  Run.Uncounted.inScope ((Run.uncounted_solverStep _).bind fun _ _ _ => uncounted_query)

theorem uncounted_searchInitial : (checker.searchInitial surroundings).Uncounted before := by
  refine Run.Uncounted.inScope ((Run.uncounted_solverStep _).bind fun _ _ _ => ?_)
  refine uncounted_query.bind fun finding _ _ => ?_
  cases finding with
  | unsatisfiable | stopped => exact Run.uncounted_pure _
  | satisfiable =>
      refine (Run.uncounted_unfold ..).bind fun _ _ _ =>
        (Run.uncounted_solverStep _).bind fun _ _ _ => ?_
      refine uncounted_query.bind fun finding _ _ => ?_
      cases finding with
      | unsatisfiable | stopped => exact Run.uncounted_pure _
      | satisfiable => exact (uncounted_witness _).bind fun _ _ _ => Run.uncounted_pure _

/-! ## Counting refinements -/

variable {fuel disjuncts : Nat} {image new : Formula} {images : List Formula}
  {result : Option (Verdict State)}

theorem tally_probe {asked probed : RunState} {outcome : Attempt Unit}
    (probes : (checker.probe surroundings pattern trace disjuncts new).Returns asked outcome
      probed) :
    probed.statistics.iterations = asked.statistics.iterations ∧
      probed.statistics.refinements = asked.statistics.refinements + 1 := by
  simp only [probe, Run.countRefinement, Run.returns_bind_iff, Run.returns_modify_iff,
    Run.returns_log_iff] at probes
  obtain ⟨_, _, rfl, _, _, rfl, attempt⟩ := probes
  have same := (uncounted_attempt fun _ => Run.uncounted_log ..).of_returns attempt
  exact ⟨same.iterations, same.refinements⟩

theorem Refines.tally
    (refines : checker.Refines surroundings pattern trace before image disjuncts new images
      result after) :
    after.statistics.iterations = before.statistics.iterations ∧
      after.statistics.refinements = before.statistics.refinements + images.length := by
  induction refines with
  | closed added | interrupted added =>
      have same := (uncounted_addsStates ..).of_returns added
      exact ⟨same.iterations, same.refinements⟩
  | reached added probes | stopped added probes =>
      have same := (uncounted_addsStates ..).of_returns added
      obtain ⟨iterations, refinements⟩ := tally_probe probes
      exact ⟨iterations.trans same.iterations, by rw [refinements, same.refinements]; rfl⟩
  | grown added probes _ induction =>
      have same := (uncounted_addsStates ..).of_returns added
      obtain ⟨iterations, refinements⟩ := tally_probe probes
      obtain ⟨iterationsRest, refinementsRest⟩ := induction
      refine ⟨by rw [iterationsRest, iterations, same.iterations], ?_⟩
      rw [refinementsRest, refinements, same.refinements, List.length_cons]
      omega

/-! ## Images that grow -/

variable (checker) in
/-- The larger image is about states, contains those of the image, and another
one. -/
structure Enlarges (image larger : Formula) : Prop where
  about : checker.StateFormula larger
  includes : ∀ state : checker.SystemState, state.Satisfies image → state.Satisfies larger
  adds : ∃ state : checker.SystemState, state.Satisfies larger ∧ ¬ state.Satisfies image

theorem StateFormula.satisfies_congr (about : checker.StateFormula image)
    {state other : checker.SystemState} (resembles : state.Resembles other) :
    state.Satisfies image ↔ other.Satisfies image := by
  let values (state : checker.SystemState) : Assignment := fun symbol => state.value symbol.var
  have evaluated (state : checker.SystemState) :
      state.Satisfies image ↔ image.Holds (values state) := about.satisfies_iff fun _ _ => rfl
  rw [evaluated, evaluated]
  exact Formula.hasTruth_congr fun symbol mentions =>
    resembles symbol.var (about.speaks symbol mentions).1

theorem length_le_of_isChain {states : List checker.SystemState}
    (remain : checker.Remain states (·.Satisfies image))
    (chain : (image :: images).IsChain checker.Enlarges) : images.length ≤ states.length := by
  induction images generalizing image states with
  | nil => exact Nat.zero_le _
  | cons larger rest induction =>
      obtain ⟨enlarges, continues⟩ := List.isChain_cons_cons.mp chain
      obtain ⟨state, isNew, outside⟩ := enlarges.adds
      obtain ⟨fewer, less, remainFewer⟩ := remain.grow enlarges.includes
        (fun _ _ resembles => enlarges.about.satisfies_congr resembles) isNew outside
      exact Nat.lt_of_le_of_lt (induction remainFewer continues) less

theorem enlarges_of_addsStates (typed : checker.WellTyped) (aboutImage : checker.StateFormula image)
    (aboutNew : checker.StateFormula new) (idle : before.solver.assertions = [])
    (added : (checker.addsStates surroundings image new).Returns before .satisfiable after) :
    checker.Enlarges image (.mkOr [image, new]) := by
  obtain ⟨posed, answered, formulas, consistent, answer, -⟩ := returns_addsStates idle added
  obtain ⟨state, inNew, unforced⟩ := exists_outside_of_sat typed aboutNew aboutImage.speaks
    (aboutImage.askable typed) formulas consistent answer
  have inUnion (state : checker.SystemState) : state.Satisfies (.mkOr [image, new]) ↔
      state.Satisfies image ∨ state.Satisfies new :=
    aboutImage.satisfies_mkOr_iff aboutNew
  refine ⟨aboutImage.mkOr aboutNew, fun state inImage => (inUnion state).mpr (.inl inImage),
    state, (inUnion state).mpr (.inr inNew), fun inImage => ?_⟩
  exact unforced (aboutImage.forces inImage)

theorem Refines.isChain (typed : checker.WellTyped) (unrolls : checker.Unrolls trace)
    (distinct : pattern.first ≠ pattern.second) (aboutImage : checker.StateFormula image)
    (aboutNew : checker.StateFormula new) (idle : before.solver.assertions = [])
    (refines : checker.Refines surroundings pattern trace before image disjuncts new images
      result after) : (image :: images).IsChain checker.Enlarges := by
  induction refines with
  | closed | interrupted => exact .singleton _
  | reached added | stopped added =>
      have enlarges := enlarges_of_addsStates typed aboutImage aboutNew idle added
      exact .cons_cons enlarges (.singleton _)
  | grown added probes _ induction =>
      have enlarges := enlarges_of_addsStates typed aboutImage aboutNew idle added
      obtain ⟨noted, message, idleNoted, attempt⟩ := attempts_of_probe idle added probes
      -- What is new next comes from an interpolant, and so it is about states again.
      obtain ⟨idleNext, derives⟩ := attempt_derives idleNoted distinct attempt
      exact .cons_cons enlarges (induction enlarges.about
        (derives.stateFormula typed unrolls aboutNew.speaks) idleNext)

/-! ## Depths -/

theorem Refines.length_le_stateCount (wellFormed : checker.WellFormed)
    (unrolls : checker.Unrolls trace) (distinct : pattern.first ≠ pattern.second)
    (aboutImage : checker.StateFormula image) (aboutNew : checker.StateFormula new)
    (idle : before.solver.assertions = [])
    (refines : checker.Refines surroundings pattern trace before image disjuncts new images
      result after) : images.length ≤ checker.stateCount := by
  obtain ⟨states, length, all⟩ := exists_states wellFormed
  rw [← length]
  exact length_le_of_isChain (fun state _ => all state)
    (refines.isChain wellFormed.toWellTyped unrolls distinct aboutImage aboutNew idle)

section Searches

variable (wellFormed : checker.WellFormed) (about : checker.StateFormula checker.initial)
  (distinct : pattern.first ≠ pattern.second) (unrolls : checker.Unrolls trace)
  (idle : before.solver.assertions = [])
include wellFormed about distinct unrolls idle

theorem tally_searchAt
    (returned : (checker.searchAt surroundings pattern trace).Returns before result after) :
    after.statistics.iterations = before.statistics.iterations ∧
      after.statistics.refinements ≤ before.statistics.refinements + checker.stateCount := by
  rcases searchAt_cases returned with
    ⟨_, -, attempt⟩ | ⟨_, -, attempt⟩ | ⟨new, attempted, images, attempt, refines⟩
  all_goals have same := (uncounted_attempt fun _ => uncounted_witness _).of_returns attempt
  · exact ⟨same.iterations, same.refinements ▸ Nat.le_add_right ..⟩
  · exact ⟨same.iterations, same.refinements ▸ Nat.le_add_right ..⟩
  · obtain ⟨idleNext, derives⟩ := attempt_derives idle distinct attempt
    have aboutNew := derives.stateFormula wellFormed.toWellTyped unrolls about.speaks
    obtain ⟨iterations, refinements⟩ := refines.tally
    have few := refines.length_le_stateCount wellFormed unrolls distinct about aboutNew idleNext
    refine ⟨iterations.trans same.iterations, ?_⟩
    rw [refinements, same.refinements]
    exact Nat.add_le_add_left few _

theorem tally_deepen {verdict : Verdict State}
    (entered : before.statistics.iterations = trace.steps.length)
    (few : before.statistics.refinements ≤ trace.steps.length * checker.stateCount)
    (returned : (checker.deepen surroundings pattern fuel trace).Returns before verdict after) :
    after.statistics.refinements ≤ after.statistics.iterations * checker.stateCount := by
  induction fuel generalizing trace before with
  | zero =>
      obtain ⟨-, -, rfl⟩ := returns_deepen_zero returned
      rwa [entered]
  | succ fuel induction =>
      obtain ⟨next, noted, unrollsNext, length, kept, counts, result, searched, searches, ended⟩ :=
        deepen_succ_cases unrolls returned
      have idleNoted := kept.trans idle
      obtain ⟨iterations, refinements⟩ :=
        tally_searchAt wellFormed about distinct unrollsNext idleNoted searches
      rw [counts] at iterations refinements
      have fewer : searched.statistics.refinements ≤ next.steps.length * checker.stateCount := by
        rw [length, Nat.succ_mul]
        exact Nat.le_trans refinements (Nat.add_le_add_right few _)
      rcases ended with ⟨-, rfl⟩ | ⟨rfl, continues⟩
      · rwa [iterations]
      · have restored := leaves_searchAt.of_returns searches
        exact induction unrollsNext (restored.assertions.trans idleNoted) iterations fewer continues

end Searches

theorem tally_check (wellFormed : checker.WellFormed) {solver : Solver}
    (idle : solver.assertions = []) {result : SafetyResult State}
    (checked : (checker.check surroundings solver).1 = .ok result) :
    result.statistics.refinements ≤ result.statistics.iterations * checker.stateCount := by
  obtain ⟨concluded, concludes, iterations, refinements⟩ := exists_verdict_of_check checked
  obtain ⟨pattern, fresh, made, ended⟩ := verdict_cases concludes
  obtain ⟨distinct, -, kept⟩ := returns_freshPattern made
  rw [iterations, refinements]
  obtain ⟨-, -, rfl⟩ := returns_freshPattern_iff.mp made
  rcases ended with searches | ⟨searched, searches, deepens⟩
  all_goals have same := uncounted_searchInitial.of_returns searches
  · exact Nat.le_trans (Nat.le_of_eq same.refinements) (Nat.zero_le _)
  · obtain ⟨idleNext, about, -⟩ := returns_searchInitial wellFormed (kept.trans idle) searches
    exact tally_deepen wellFormed about distinct .start idleNext same.iterations
      (Nat.le_trans (Nat.le_of_eq same.refinements) (Nat.zero_le _)) deepens

/-! ## One depth -/

variable (checker) in
structure Ready (pattern : Pattern) (trace : Trace) (state : RunState) : Prop where
  distinct : pattern.first ≠ pattern.second
  owned : state.solver.OwnsBoth pattern
  idle : state.solver.assertions = []
  unrolls : checker.Unrolls trace
  positive : 0 < trace.steps.length

theorem ends_witness_anyhow (indexings : List Indexing) :
    (checker.witness surroundings indexings).Ends (fun _ => True) before := by
  refine Run.ends_get.bind fun state asked _ _ => ?_
  split
  next => exact (Run.ends_log ..).bind fun _ _ _ _ => Run.ends_pure _
  next model _ =>
    cases shown : upToViolation checker.property (indexings.map model.stateAt) with
    | error error => exact .inr ⟨error, trivial, rfl⟩
    | ok states =>
        exact Run.Returns.ends ((Run.returns_bind_iff ..).mpr
          ⟨states, asked, (Run.returns_lift_iff ..).mpr ⟨rfl, rfl⟩,
            (Run.returns_pure_iff ..).mpr ⟨rfl, rfl⟩⟩) (.refl _)

theorem Ready.ownsBoth_of_attempt (ready : checker.Ready pattern trace before)
    (typed : checker.WellTyped) (free : checker.initial.PrimeFree)
    {outcome : Attempt (Counterexample State)}
    (attempt : (checker.attempt surroundings pattern (checker.unrolling trace checker.initial)
      (checker.witness surroundings trace.indexings)).Returns before outcome after) :
    after.solver.OwnsBoth pattern := by
  have ends : (checker.attempt surroundings pattern (checker.unrolling trace checker.initial)
      (checker.witness surroundings trace.indexings)).Ends (fun _ => True) before :=
    ends_attempt typed ready.unrolls (askable_initial typed free) (speaksOf_initial typed)
      ready.positive ready.distinct ready.idle ready.owned fun _ _ _ _ => ends_witness_anyhow _
  rcases ends with ⟨outcome', after', returned, inherits⟩ | ⟨error, -, failed⟩
  · obtain ⟨-, rfl⟩ := Prod.mk.inj (attempt.symm.trans returned)
    exact inherits.ownsBoth ready.owned
  · rw [attempt] at failed
    cases failed

/-- Refining an image comes to an end. At any depth, once no bad state is reached
from the initial states, the loop returns the same with every limit above the number
of states. Each image on the way contains the one before and another state, so that
there are no more of them than states. A check refines images no more often than that
at each of its depths. -/
theorem refinements_within_state_count (wellFormed : checker.WellFormed)
    (free : checker.initial.PrimeFree) :
    (∀ surroundings pattern trace before new entered, checker.Ready pattern trace before →
      (checker.attempt surroundings pattern (checker.unrolling trace checker.initial)
        (checker.witness surroundings trace.indexings)).Returns before (.excluded new) entered →
      ∃ images result after,
        checker.Refines surroundings pattern trace entered checker.initial 1 new images result
          after ∧
        (∀ fuel > checker.stateCount, (checker.refine surroundings pattern trace fuel
          checker.initial 1 new).Returns entered result after) ∧
        (checker.searchAt surroundings pattern trace).Returns before result after ∧
        (checker.initial :: images).IsChain checker.Enlarges ∧
        images.length ≤ checker.stateCount ∧
        after.statistics.refinements = before.statistics.refinements + images.length) ∧
    ∀ surroundings solver result, solver.assertions = [] →
      (checker.check surroundings solver).1 = .ok result →
      result.statistics.refinements ≤ result.statistics.iterations * checker.stateCount := by
  refine ⟨fun surroundings pattern trace before new entered ready attempt => ?_,
    fun surroundings solver result idle checked => tally_check wellFormed idle checked⟩
  have typed := wellFormed.toWellTyped
  have about := StateFormula.initial wellFormed free
  have owned := ready.ownsBoth_of_attempt typed free attempt
  obtain ⟨idle, derives⟩ := attempt_derives ready.idle ready.distinct attempt
  have aboutNew := derives.stateFormula typed ready.unrolls about.speaks
  obtain ⟨states, enough, all⟩ :=
    ready.unrolls.exists_states typed ready.positive entered.solver
  -- The limit of the search is beyond the number of states, so it is never met.
  have ends : (checker.refine surroundings pattern trace
      (checker.refinementLimit entered.solver trace) checker.initial 1 new).Ends (fun _ => False)
      entered :=
    ends_refine typed ready.unrolls ready.positive ready.distinct (fun state _ => all state) enough
      (about.askable typed) about.speaks aboutNew idle owned
  rcases ends with ⟨result, after, returned, -⟩ | ⟨-, impossible, -⟩
  · obtain ⟨images, refines⟩ := exists_refines_of_returns returned
    have few := refines.length_le_stateCount wellFormed ready.unrolls ready.distinct about aboutNew
      idle
    refine ⟨images, result, after, refines, fun fuel large => ?_, ?_, ?_, few, ?_⟩
    · exact refines.returns_refine (Nat.lt_of_le_of_lt few large)
    · rw [searchAt, Run.returns_bind_iff]
      refine ⟨_, _, attempt, ?_⟩
      simp only [Run.returns_bind_iff, Run.returns_get_iff]
      exact ⟨entered, entered, ⟨rfl, rfl⟩, returned⟩
    · exact refines.isChain typed ready.unrolls ready.distinct about aboutNew idle
    · have same := (uncounted_attempt fun _ => uncounted_witness _).of_returns attempt
      rw [refines.tally.2, same.refinements]
  · exact absurd impossible id

/-! ## A countdown that is refined -/

def countdownStep : Trace where
  steps := [.binary .eq (.version counter 1) (.binary .sub (.version counter 0) (.int 1))]
  passed := [.all 0]
  reached := (Indexing.all 0).set counter 1
  bad := [.unary .not (.binary .leq (.int 0) (.version counter 1))]

private theorem extend_countdown (before : RunState) :
    ((countdown 0 .forward true).extend (.start (countdown 0 .forward true).base)).Returns before
      countdownStep before := rfl

theorem refinements_within_state_count_countdown :
    let checker := countdown 0 .forward true
    let pattern : Pattern := ⟨⟨0, 0⟩, ⟨0, 1⟩⟩
    let before : RunState := { solver := (Solver.new 0 .default).createMarker.2.createMarker.2 }
    checker.WellFormed ∧ checker.initial.PrimeFree ∧ checker.stateCount = 4 ∧
      checker.Ready pattern countdownStep before ∧
      (∃ new entered images result after,
        (checker.attempt {} pattern (checker.unrolling countdownStep checker.initial)
          (checker.witness {} countdownStep.indexings)).Returns before (.excluded new) entered ∧
        checker.Refines {} pattern countdownStep entered checker.initial 1 new images result
          after ∧
        (checker.refine {} pattern countdownStep 5 checker.initial 1 new).Returns entered result
          after ∧
        (checker.initial :: images).IsChain checker.Enlarges ∧ images.length = 3) ∧
      ∃ result, (checker.check {} (.new 0 .default)).1 = .ok result ∧
        result.statistics.refinements = 3 ∧
        result.statistics.refinements ≤ result.statistics.iterations * 4 := by
  intro checker pattern before
  have elementary : checker.Elementary := by decide
  have wellFormed : checker.WellFormed := wellFormed_countdown elementary (by decide)
  have free := elementary.initialPrimes
  have count : checker.stateCount = 4 := by decide +kernel
  have ready : checker.Ready pattern countdownStep before :=
    ⟨by decide, ⟨rfl, rfl⟩, rfl, (returns_extend .start (extend_countdown before)).1, by decide⟩
  obtain ⟨loop, bounded⟩ := refinements_within_state_count wellFormed free
  refine ⟨wellFormed, free, count, ready, ?_, ?_⟩
  · obtain ⟨new, entered, attempted⟩ := @Attempt.exists_returns_of_isExcluded _
      (checker.attempt {} pattern (checker.unrolling countdownStep checker.initial)
        (checker.witness {} countdownStep.indexings)) before (by decide +kernel)
    obtain ⟨images, result, after, refines, returned, searched, chain, -, refinements⟩ :=
      loop {} pattern countdownStep before new entered ready attempted
    have three : ((checker.searchAt {} pattern countdownStep).outcome
        before).2.statistics.refinements = 3 := by decide +kernel
    rw [searched, refinements] at three
    exact ⟨new, entered, images, result, after, attempted, refines,
      returned 5 (by rw [count]; decide), chain, (Nat.zero_add _).symm.trans three⟩
  · obtain ⟨result, checked, three⟩ := (@Outcome.any_toOption_iff _ _
      (checker.check {} (.new 0 .default)).1
      fun result => decide (result.statistics.refinements = 3)).mp (by decide +kernel)
    exact ⟨result, checked, of_decide_eq_true three, count ▸ bounded {} _ result rfl checked⟩

end Checker

end SymbolicSafety
