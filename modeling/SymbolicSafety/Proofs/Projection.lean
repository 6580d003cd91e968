import SymbolicSafety.Proofs.Exploration
import SymbolicSafety.Search.Cube

namespace SymbolicSafety

/-! The boxes that a projection emits: they hold every solution, and each of
them can be completed. -/

namespace Problem

variable {problem : Problem} {onto : List Nat} {budget : Nat} {effort : Effort}
  {enclosed : Enclosed} {numbers : Symbol → Int}

def projected (onto : List Nat) (box : Box) : Cube := onto.map fun input => box.getD input .full

/-- Every point of the projection of the box extends to a solution. What is not
projected may be taken from the box `found`: a root that is true there, but not
in the whole box, reads only projected inputs whose values are fixed. -/
structure Completed (problem : Problem) (onto : List Nat) (box found : Box) : Prop where
  isBox : problem.circuit.IsBox box
  refines : found.Refines box
  decided : ∀ root ∈ problem.roots,
    ((problem.circuit.enclose box).interval root.gate).isTrue = true ∨
      (((problem.circuit.enclose found).interval root.gate).isTrue = true ∧
        ∀ input ∈ root.inputs, input ∈ onto → (box.getD input .full).width = 0)

theorem Completed.isBox_found {box found : Box} (completed : problem.Completed onto box found) :
    problem.circuit.IsBox found :=
  completed.refines.trans completed.isBox

private theorem completed_of_contribution (isBox : problem.circuit.IsBox enclosed.box)
    (bounds : enclosed.bounds = problem.circuit.enclose enclosed.box)
    (contributed : (problem.contribution onto budget effort enclosed).1 = .cube) :
    ∃ found, problem.Completed onto enclosed.box found := by
  have refines : enclosed.box.Refines enclosed.box := .refl isBox.ordered
  unfold contribution at contributed
  split at contributed
  next satisfied =>
    refine ⟨enclosed.box, isBox, refines, fun root member => .inl ?_⟩
    exact bounds ▸ isTrue_of_choose satisfied root member
  next => simp at contributed
  next stuck =>
    split at contributed
    next found effort' answer =>
      obtain ⟨found', isTrue⟩ :=
        isTrue_of_explore answer (List.forall_mem_singleton.mpr refines)
      refine ⟨found, isBox, found', fun root member => ?_⟩
      cases decided : (enclosed.bounds.interval root.gate).isTrue with
      | true => exact .inl (bounds ▸ decided)
      | false =>
          refine .inr ⟨isTrue root member, fun input inRoot projected => ?_⟩
          exact width_eq_zero_of_choose stuck member decided inRoot (by simpa using projected)
    next => simp at contributed
    next => simp at contributed

private theorem not_inside_of_contribution (wellFormed : problem.circuit.WellFormed)
    (solved : problem.Solved numbers) (isBox : problem.circuit.IsBox enclosed.box)
    (contributed : (problem.contribution onto budget effort enclosed).1 = .nothing) :
    ¬ problem.circuit.Inside enclosed.box numbers := by
  unfold contribution at contributed
  split at contributed
  next => simp at contributed
  next => simp at contributed
  next =>
    split at contributed
    next => simp at contributed
    next effort' answer =>
      exact not_inside_of_explore wellFormed solved answer (List.forall_mem_singleton.mpr isBox) _
        List.mem_cons_self
    next => simp at contributed

private theorem width_ne_zero_of_contribution {input : Nat}
    (contributed : (problem.contribution onto budget effort enclosed).1 = .split input) :
    (enclosed.box.getD input .full).width ≠ 0 := by
  unfold contribution at contributed
  split at contributed
  next => simp at contributed
  next chosen =>
    obtain rfl := Contribution.split.inj contributed
    exact (width_ne_zero_of_choose chosen).2
  next => split at contributed <;> simp at contributed

/-! ## Enumeration -/

variable {limits : Limits} {effort' : Effort} {cubes emitted : Array Cube} {waiting : List Box}

/-- The new cubes are the projections of boxes that can be completed, and these
boxes hold every solution that a waiting box holds. -/
theorem enumerate_spec (wellFormed : problem.circuit.WellFormed)
    (result : problem.enumerate onto limits effort cubes waiting = .ok (emitted, effort'))
    (boxes : ∀ box ∈ waiting, problem.circuit.IsBox box) :
    ∃ kept : List Box, emitted.toList = cubes.toList ++ kept.map (projected onto) ∧
      (∀ box ∈ kept, ∃ found, problem.Completed onto box found) ∧
      ∀ numbers, problem.Solved numbers → ∀ box ∈ waiting, problem.circuit.Inside box numbers →
        ∃ box ∈ kept, problem.circuit.Inside box numbers := by
  fun_induction enumerate problem onto limits effort cubes waiting with
  | case1 effort cubes =>
      simp only [Except.ok.injEq, Prod.mk.injEq] at result
      obtain ⟨rfl, rfl⟩ := result
      exact ⟨[], by simp, by simp, by simp⟩
  | case2 effort cubes box waiting left propagated induction =>
      rw [List.forall_mem_cons] at boxes
      obtain ⟨kept, equal, completed, complete⟩ := induction result boxes.2
      refine ⟨kept, equal, completed, fun numbers solved => List.forall_mem_cons.mpr
        ⟨fun inside => ?_, complete numbers solved⟩⟩
      obtain ⟨enclosed, found, -⟩ := propagate_sound wellFormed solved boxes.1 inside
      simp [propagated] at found
  | case3 => simp at result
  | case4 effort cubes box waiting enclosed propagated more outcome contributed induction =>
      rw [List.forall_mem_cons] at boxes
      obtain ⟨kept, equal, completed, complete⟩ := induction result boxes.2
      refine ⟨kept, equal, completed, fun numbers solved => List.forall_mem_cons.mpr
        ⟨fun inside => ?_, complete numbers solved⟩⟩
      have inside' := inside_of_propagate wellFormed solved boxes.1 inside propagated
      have isBox := (propagate_spec boxes.1 propagated).1
      exact absurd inside' (not_inside_of_contribution wellFormed solved isBox contributed)
  | case5 effort cubes box waiting enclosed propagated more outcome contributed pushed full =>
      simp only [pushed, Array.size_push] at full
      simp [full] at result
  | case6 effort cubes box waiting enclosed propagated more outcome contributed pushed fits
      induction =>
      -- The box is kept as propagation leaves it, which loses no solution.
      have added : pushed = cubes.push (projected onto enclosed.box) := by
        simp [pushed, projected]
      simp only [pushed, Array.size_push] at fits
      simp only [Array.size_push, fits, if_false] at result
      rw [added] at induction
      rw [List.forall_mem_cons] at boxes
      obtain ⟨isBox, bounds⟩ := propagate_spec boxes.1 propagated
      obtain ⟨kept, equal, completed, complete⟩ := induction result boxes.2
      refine ⟨enclosed.box :: kept, by simpa using equal, List.forall_mem_cons.mpr
        ⟨completed_of_contribution isBox bounds contributed, completed⟩, fun numbers solved =>
        List.forall_mem_cons.mpr ⟨fun inside => ?_, fun box member inside => ?_⟩⟩
      · exact ⟨enclosed.box, List.mem_cons_self,
          inside_of_propagate wellFormed solved boxes.1 inside propagated⟩
      · obtain ⟨held, inKept, inside'⟩ := complete numbers solved box member inside
        exact ⟨held, List.mem_cons_of_mem _ inKept, inside'⟩
  | case7 effort cubes box waiting enclosed propagated more outcome input contributed within
      lower upper split induction =>
      rw [List.forall_mem_cons] at boxes
      obtain ⟨refines, -⟩ := propagate_spec boxes.1 propagated
      have wide := width_ne_zero_of_contribution contributed
      obtain ⟨lowerRefines, upperRefines⟩ := halves_refines refines wide split
      obtain ⟨kept, equal, completed, complete⟩ := induction result
        (by simpa using ⟨lowerRefines, upperRefines, boxes.2⟩)
      refine ⟨kept, equal, completed, fun numbers solved => ?_⟩
      have later := complete numbers solved
      simp only [List.forall_mem_cons] at later ⊢
      refine ⟨fun inside => ?_, later.2.2⟩
      have inside' := inside_of_propagate wellFormed solved boxes.1 inside propagated
      exact (inside_halves refines wide split inside').elim later.1 later.2.1
  | case8 => simp at result

end Problem

end SymbolicSafety
