import SymbolicSafety.Proofs.ForwardConvergence
import SymbolicSafety.Proofs.Saturation

namespace SymbolicSafety

/-! Bad states in the image of a safe verdict. A target asks for bad states on
paths that are as long as the trace, so the image of a backward check may contain a
bad state from which no such path starts. It is left out if the trace has a single
step or if the image has no deadlocks. A forward check leaves it out in any case:
its images are made of successors, which are bad only if a reachable state is. -/

namespace Checker

variable {State : Type} {checker : Checker State}

/-- A path out of the image meets no bad states if it is one step shorter than
the depth of the proof. So there are none in the image if the depth is one, or
if every state of the image has a successor. There are none either if the check
was a forward one. -/
theorem not_violates_of_safe (wellFormed : checker.WellFormed)
    (cumulative : checker.cumulative = true) {surroundings : Surroundings} {solver : Solver}
    (idle : solver.assertions = []) {result : SafetyResult State}
    (checked : (checker.check surroundings solver).1 = .ok result) {proof : SafetyProof}
    (safe : result.verdict = .safe proof) :
    (∀ path : Nat → checker.SystemState, (path 0).Satisfies proof.image →
      checker.IsPath path (proof.depth - 1) →
      ∀ place ≤ proof.depth - 1, ¬ (path place).Violates) ∧
    (proof.depth ≤ 1 ∨
      (∀ state : checker.SystemState, state.Satisfies proof.image → ∃ next, state.Step next) →
      ∀ state : checker.SystemState, state.Satisfies proof.image → ¬ state.Violates) ∧
    (checker.direction = .forward →
      ∀ state : checker.SystemState, state.Satisfies proof.image → ¬ state.Violates) := by
  have sound := sound_of_check wellFormed idle checked
  rw [safe] at sound
  have avoids := sound.avoids cumulative
  have clean : proof.depth ≤ 1 ∨
      (∀ state : checker.SystemState, state.Satisfies proof.image → ∃ next, state.Step next) →
      ∀ state : checker.SystemState, state.Satisfies proof.image → ¬ state.Violates := by
    intro enough state satisfies
    have ⟨path, starts, isPath⟩ : ∃ path : Nat → checker.SystemState, path 0 = state ∧
        checker.IsPath path (proof.depth - 1) := by
      rcases enough with shallow | live
      · refine ⟨fun _ => state, rfl, ?_⟩
        rw [Nat.sub_eq_zero_of_le shallow]
        simp [IsPath]
      · exact exists_path_of_live sound.closed live _ satisfies
    exact starts ▸ avoids path (starts.symm ▸ satisfies) isPath 0 (Nat.zero_le _)
  refine ⟨avoids, clean, fun direction state satisfies => ?_⟩
  by_cases shallow : proof.depth ≤ 1
  · exact clean (.inl shallow) state satisfies
  · obtain ⟨trace, start, unrolls, length, about, starts, satisfiesStart⟩ :=
      sound.stems state satisfies
    exact starts.not_violates wellFormed unrolls (by omega) direction about
      (unviolated_of_safe wellFormed idle checked safe) cumulative satisfiesStart

/-! ## A lamp whose fuse blows -/

def fuse : Variable := ⟨2, "fuse", .bool⟩

/-- The lamp follows the switch as long as the fuse lasts, which is one step. Lamp
and switch are on at first. -/
def burning : Checker Valuation where
  initial := .mkAnd [.mkEq (.version switch 0) (.bool true), .mkEq (.version lamp 0) (.bool true)]
  base := .all 0
  action := ⟨.mkAnd [.current fuse, .mkNot (.primed fuse),
    .mkEq (.primed switch) (.current switch), .mkEq (.primed lamp) (.current switch)],
    (((Indexing.all 0).set switch 1).set lamp 1).set fuse 1⟩
  property := .mkEq (.current lamp) (.bool true)
  reconstruct := id
  direction := .forward
  bound := some 5
  cumulative := true
  timeout := none
  bounded := by simp

private theorem wellFormed_burning : burning.WellFormed :=
  Elementary.wellFormed_of_arithmeticFree (by decide) (by decide)

def lit (whole : Bool) : burning.SystemState where
  value var := .bool (if var = fuse then whole else true)
  inDomain := by cases whole <;> decide +kernel

private theorem step_burning_iff {before after : burning.SystemState} :
    before.Step after ↔ (Formula.mkAnd [.version fuse 0, .mkNot (.version fuse 1),
      .mkEq (.version switch 1) (.version switch 0),
      .mkEq (.version lamp 1) (.version switch 0)]).Holds (before.between after) :=
  SystemState.step_iff_holds_between wellFormed_burning (by decide) rfl (by decide)

private theorem not_step_lit (next : burning.SystemState) : ¬ (lit false).Step next := by
  intro steps
  have whole : (Formula.version fuse 0).Holds ((lit false).between next) :=
    (Formula.holds_mkAnd_iff _).mp (step_burning_iff.mp steps) _ (by simp)
  have blown : (Formula.version fuse 0).HasTruth ((lit false).between next) false :=
    Formula.hasValue_symbol ((lit false).between next) (.version fuse 0)
  exact absurd (whole.unique blown) (by decide)

/-- The blown fuse leaves a state without successors in the image, which is not bad.
The lamp without a fuse has no such state. Both proofs take two steps. -/
theorem not_violates_of_safe_burning :
    (∃ result proof, burning.WellFormed ∧ burning.cumulative = true ∧
      burning.direction = .forward ∧
      (burning.check {} (.new 0 .default)).1 = .ok result ∧ result.verdict = .safe proof ∧
      proof.depth = 2 ∧ (lit true).Satisfies proof.image ∧ (lit true).Step (lit false) ∧
      ¬ (lit true).Violates ∧ (lit false).Satisfies proof.image ∧
      (∀ next, ¬ (lit false).Step next) ∧ ¬ (lit false).Violates) ∧
    ∃ result proof, lighting.WellFormed ∧ lighting.cumulative = true ∧
      (lighting.check {} (.new 0 .default)).1 = .ok result ∧ result.verdict = .safe proof ∧
      proof.depth = 2 ∧
      (∀ state : lighting.SystemState, state.Satisfies proof.image → ∃ next, state.Step next) ∧
      ∀ state : lighting.SystemState, state.Satisfies proof.image → ¬ state.Violates := by
  constructor
  · obtain ⟨result, proof, checked, safe, seen⟩ :
        ∃ result proof, (burning.check {} (.new 0 .default)).1 = .ok result ∧
          result.verdict = .safe proof ∧ decide (proof.depth = 2 ∧
            (lit true).Satisfies proof.image ∧ (lit false).Satisfies proof.image) = true :=
      SafetyResult.exists_of_any (by decide +kernel) Verdict.proof?_eq_some_iff
    obtain ⟨depth, whole, blown⟩ := of_decide_eq_true seen
    obtain ⟨avoids, -, forward⟩ :=
      not_violates_of_safe wellFormed_burning rfl rfl checked safe
    have steps : (lit true).Step (lit false) := step_burning_iff.mpr (by decide +kernel)
    have isPath : burning.IsPath (fun place => lit (decide (place = 0))) (proof.depth - 1) := by
      rw [depth]
      intro place less
      obtain rfl : place = 0 := by omega
      exact steps
    exact ⟨result, proof, wellFormed_burning, rfl, rfl, checked, safe, depth, whole, steps,
      avoids _ whole isPath 0 (by omega), blown, not_step_lit, forward rfl _ blown⟩
  · obtain ⟨result, proof, checked, safe, depth⟩ :
        ∃ result proof, (lighting.check {} (.new 0 .default)).1 = .ok result ∧
          result.verdict = .safe proof ∧ decide (proof.depth = 2) = true :=
      SafetyResult.exists_of_any (by decide +kernel) Verdict.proof?_eq_some_iff
    obtain ⟨-, clean, -⟩ := not_violates_of_safe wellFormed_lighting rfl rfl checked safe
    have live : ∀ state : lighting.SystemState, state.Satisfies proof.image →
        ∃ next, state.Step next := fun state _ => total_lighting state
    exact ⟨result, proof, wellFormed_lighting, rfl, checked, safe, of_decide_eq_true depth, live,
      clean (.inr live)⟩

/-! ## A bad state without successors -/

/-- The only step leads from one to two, which is bad. It starts at zero. -/
def stuck : Checker Valuation where
  initial := .binary .eq (.version stage 0) (.int 0)
  base := .all 0
  action := ⟨.nary .and [.binary .eq (.current stage) (.int 1),
    .binary .eq (.primed stage) (.int 2)], (Indexing.all 0).set stage 1⟩
  property := .binary .lt (.current stage) (.int 2)
  reconstruct := id
  direction := .backward
  bound := some 5
  cumulative := true
  timeout := none
  bounded := by simp

private theorem wellFormed_stuck : stuck.WellFormed :=
  Elementary.wellFormed_of_arithmeticFree (by decide) (by decide)

def lastStage : stuck.SystemState where
  value _ := .int 2
  inDomain := by decide +kernel

/-- The last stage is bad and part of the image. -/
theorem image_contains_last_stage :
    ∃ result proof, stuck.WellFormed ∧ stuck.cumulative = true ∧
      (stuck.check {} (.new 0 .default)).1 = .ok result ∧ result.verdict = .safe proof ∧
      lastStage.Satisfies proof.image ∧ lastStage.Violates := by
  obtain ⟨result, proof, checked, safe, contains⟩ :
      ∃ result proof, (stuck.check {} (.new 0 .default)).1 = .ok result ∧
        result.verdict = .safe proof ∧
        decide (lastStage.Satisfies proof.image) = true :=
    SafetyResult.exists_of_any (by decide +kernel) Verdict.proof?_eq_some_iff
  exact ⟨result, proof, wellFormed_stuck, rfl, checked, safe, of_decide_eq_true contains,
    by decide +kernel⟩

end Checker

end SymbolicSafety
