import SymbolicSafety.Proofs.Narrowing
import SymbolicSafety.Search.Exploration

namespace SymbolicSafety

/-! Depth-first search over boxes: an unsatisfiable answer means that no
waiting box holds a solution, and a satisfying box makes every root true at
all its points. -/

namespace Problem

variable {problem : Problem} {numbers : Symbol → Int}

/-! ## Choices -/

private def prefer (box : Box) (best : Option Nat) (input : Nat) : Option Nat :=
  if (box.getD input .full).width = 0 then
    best
  else
    match best with
    | none => some input
    | some held =>
        if (box.getD input .full).width < (box.getD held .full).width then some input else best

private theorem prefer_spec (box : Box) (best : Option Nat) (input : Nat) :
    (∀ chosen, prefer box best input = some chosen → best = some chosen ∨
      (chosen = input ∧ (box.getD input .full).width ≠ 0)) ∧
    (prefer box best input = none → best = none ∧ (box.getD input .full).width = 0) := by
  unfold prefer
  split
  next fixed => exact ⟨fun chosen equal => .inl equal, fun equal => ⟨equal, fixed⟩⟩
  next wide =>
    split
    · exact ⟨fun chosen equal => .inr ⟨(Option.some.inj equal).symm, wide⟩, by simp⟩
    · split
      · exact ⟨fun chosen equal => .inr ⟨(Option.some.inj equal).symm, wide⟩, by simp⟩
      · exact ⟨fun chosen equal => .inl equal, by simp⟩

private theorem foldl_prefer_spec (box : Box) (inputs : List Nat) (best : Option Nat) :
    (∀ chosen, inputs.foldl (prefer box) best = some chosen → best = some chosen ∨
      (chosen ∈ inputs ∧ (box.getD chosen .full).width ≠ 0)) ∧
    (inputs.foldl (prefer box) best = none →
      best = none ∧ ∀ input ∈ inputs, (box.getD input .full).width = 0) := by
  induction inputs generalizing best with
  | nil => simp
  | cons head rest induction =>
      obtain ⟨headSome, headNone⟩ := prefer_spec box best head
      obtain ⟨restSome, restNone⟩ := induction (prefer box best head)
      rw [List.foldl_cons]
      constructor
      · intro chosen equal
        rcases restSome chosen equal with fromHead | ⟨member, wide⟩
        · rcases headSome chosen fromHead with held | ⟨rfl, wide⟩
          · exact .inl held
          · exact .inr ⟨List.mem_cons_self, wide⟩
        · exact .inr ⟨List.mem_cons_of_mem _ member, wide⟩
      · intro equal
        obtain ⟨noneBefore, others⟩ := restNone equal
        obtain ⟨noneHeld, fixed⟩ := headNone noneBefore
        exact ⟨noneHeld, List.forall_mem_cons.mpr ⟨fixed, others⟩⟩

private theorem mem_of_narrowest {box : Box} {inputs : List Nat} {input : Nat}
    (chosen : narrowest box inputs = some input) :
    input ∈ inputs ∧ (box.getD input .full).width ≠ 0 := by
  simpa using (foldl_prefer_spec box inputs none).1 input chosen

private theorem width_eq_zero_of_narrowest {box : Box} {inputs : List Nat} {input : Nat}
    (nothing : narrowest box inputs = none) (member : input ∈ inputs) :
    (box.getD input .full).width = 0 :=
  ((foldl_prefer_spec box inputs none).2 nothing).2 input member

theorem isTrue_of_choose {allowed : Nat → Bool} {enclosed : Enclosed}
    (chosen : problem.choose allowed enclosed = .satisfied) :
    ∀ root ∈ problem.roots, (enclosed.bounds.interval root.gate).isTrue = true := by
  simp only [choose] at chosen
  split at chosen
  next decided => simpa using decided
  next => split at chosen <;> simp at chosen

theorem width_ne_zero_of_choose {allowed : Nat → Bool} {enclosed : Enclosed} {input : Nat}
    (chosen : problem.choose allowed enclosed = .split input) :
    allowed input = true ∧ (enclosed.box.getD input .full).width ≠ 0 := by
  simp only [choose] at chosen
  split at chosen
  · simp at chosen
  · split at chosen
    next found =>
      obtain rfl := Choice.split.inj chosen
      obtain ⟨member, wide⟩ := mem_of_narrowest found
      exact ⟨(List.mem_filter.mp member).2, wide⟩
    next => simp at chosen

theorem exists_root_of_choose {allowed : Nat → Bool} {enclosed : Enclosed} {input : Nat}
    (chosen : problem.choose allowed enclosed = .split input) :
    ∃ root ∈ problem.roots, input ∈ root.inputs := by
  simp only [choose] at chosen
  split at chosen
  · simp at chosen
  · split at chosen
    next found =>
      obtain rfl := Choice.split.inj chosen
      have member := (List.mem_filter.mp (mem_of_narrowest found).1).1
      obtain ⟨root, undecided, inRoot⟩ := List.mem_flatMap.mp member
      exact ⟨root, (List.mem_filter.mp undecided).1, inRoot⟩
    next => simp at chosen

theorem exists_undecided_of_choose {allowed : Nat → Bool} {enclosed : Enclosed}
    (chosen : problem.choose allowed enclosed = .stuck) :
    ∃ root ∈ problem.roots, (enclosed.bounds.interval root.gate).isTrue = false := by
  simp only [choose] at chosen
  split at chosen
  · simp at chosen
  next undecided => simpa using undecided

theorem width_eq_zero_of_choose {allowed : Nat → Bool} {enclosed : Enclosed}
    (chosen : problem.choose allowed enclosed = .stuck) {root : Root}
    (member : root ∈ problem.roots)
    (undecided : (enclosed.bounds.interval root.gate).isTrue = false) {input : Nat}
    (inRoot : input ∈ root.inputs) (isAllowed : allowed input = true) :
    (enclosed.box.getD input .full).width = 0 := by
  simp only [choose] at chosen
  split at chosen
  · simp at chosen
  · split at chosen
    · simp at chosen
    next nothing =>
      refine width_eq_zero_of_narrowest nothing (List.mem_filter.mpr ⟨?_, isAllowed⟩)
      exact List.mem_flatMap.mpr ⟨root, by simp [member, undecided], inRoot⟩

/-! ## Halves -/

private theorem wide_of_width {box outer : Box} (refines : box.Refines outer) {input : Nat}
    (width : (box.getD input .full).width ≠ 0) :
    (box.getD input .full).lo < (box.getD input .full).hi := by
  have ordered : (box.getD input .full).lo ≤ (box.getD input .full).hi := by
    rw [Array.getD_eq_getD_getElem?]
    cases bound : box[input]? with
    | none => decide
    | some interval => exact refines.ordered input interval bound
  simp only [Interval.width] at width
  omega

theorem halves_refines {box outer first second : Box} (refines : box.Refines outer) {input : Nat}
    (width : (box.getD input .full).width ≠ 0) (split : halves box input = (first, second)) :
    first.Refines outer ∧ second.Refines outer := by
  obtain ⟨rfl, rfl⟩ := Prod.mk.inj split
  have wide := wide_of_width refines width
  obtain ⟨lower, upper⟩ := Interval.split_ordered wide
  have within (held : Interval) (bound : box[input]? = some held) :
      box.getD input .full = held := by
    simp [Array.getD_eq_getD_getElem?, bound]
  constructor
  · refine Box.Refines.inherited outer refines lower fun held bound => ?_
    rw [within held bound] at upper wide ⊢
    simp only [Interval.split] at *
    omega
  · refine Box.Refines.inherited outer refines upper fun held bound => ?_
    rw [within held bound] at lower wide ⊢
    simp only [Interval.split] at *
    omega

theorem inside_halves {circuit : Circuit} {box outer first second : Box}
    (refines : box.Refines outer) {input : Nat} (width : (box.getD input .full).width ≠ 0)
    (split : halves box input = (first, second)) (inside : circuit.Inside box numbers) :
    circuit.Inside first numbers ∨ circuit.Inside second numbers := by
  obtain ⟨rfl, rfl⟩ := Prod.mk.inj split
  have ordered := Int.le_of_lt (wide_of_width refines width)
  have placed {part : Interval}
      (member : ∀ held, circuit.inputs[input]? = some held → numbers held.symbol ∈ part) :
      circuit.Inside (box.setIfInBounds input part) numbers := by
    intro index held found
    exact mem_setIfInBounds (inside index held found) fun same => member held (same ▸ found)
  cases found : circuit.inputs[input]? with
  | none => exact .inl (placed (by simp [found]))
  | some held =>
      have member := inside input held found
      rw [Interval.mem_split ordered] at member
      refine member.imp (fun lower => placed fun other same => ?_)
        (fun upper => placed fun other same => ?_)
      · obtain rfl := Option.some.inj (found.symm.trans same)
        exact lower
      · obtain rfl := Option.some.inj (found.symm.trans same)
        exact upper

/-! ## Search -/

/-- An unsatisfiable answer leaves no solution in any of the waiting boxes. -/
theorem not_inside_of_explore (wellFormed : problem.circuit.WellFormed)
    (solved : problem.Solved numbers) {budget : Nat} {effort effort' : Effort}
    {waiting : List Box} (answer : problem.explore budget effort waiting = (.unsat, effort'))
    (boxes : ∀ box ∈ waiting, problem.circuit.IsBox box) :
    ∀ box ∈ waiting, ¬ problem.circuit.Inside box numbers := by
  fun_induction explore problem budget effort waiting with
  | case1 => simp
  | case2 effort box waiting left propagated induction =>
      rw [List.forall_mem_cons] at boxes ⊢
      refine ⟨fun inside => ?_, induction answer boxes.2⟩
      obtain ⟨enclosed, found, -⟩ := propagate_sound wellFormed solved boxes.1 inside
      simp [propagated] at found
  | case3 | case4 | case6 => simp at answer
  | case5 effort box waiting enclosed propagated input chosen within lower upper split induction =>
      rw [List.forall_mem_cons] at boxes ⊢
      obtain ⟨refines, -⟩ := propagate_spec boxes.1 propagated
      have wide := (width_ne_zero_of_choose chosen).2
      obtain ⟨lowerRefines, upperRefines⟩ := halves_refines refines wide split
      have later := induction answer (by simpa using ⟨lowerRefines, upperRefines, boxes.2⟩)
      simp only [List.forall_mem_cons] at later
      refine ⟨fun inside => ?_, later.2.2⟩
      have inside' := inside_of_propagate wellFormed solved boxes.1 inside propagated
      exact (inside_halves refines wide split inside').elim later.1 later.2.1

/-- What shrinking and halving keep of all waiting boxes holds of a satisfying
one, and its bounds make every root true. -/
theorem keeps_of_explore {keeps : Box → Prop} (inherited : Box.Inherited keeps)
    (halved : ∀ ⦃box : Box⦄ ⦃input : Nat⦄, keeps box → (box.getD input .full).width ≠ 0 →
      keeps (halves box input).1 ∧ keeps (halves box input).2)
    {budget : Nat} {effort effort' : Effort} {waiting : List Box} {found : Box}
    (answer : problem.explore budget effort waiting = (.sat found, effort'))
    (boxes : ∀ box ∈ waiting, keeps box) :
    keeps found ∧ ∀ root ∈ problem.roots,
      ((problem.circuit.enclose found).interval root.gate).isTrue = true := by
  fun_induction explore problem budget effort waiting with
  | case1 | case4 | case6 => simp at answer
  | case2 effort box waiting left propagated induction =>
      exact induction answer (List.forall_mem_cons.mp boxes).2
  | case3 effort box waiting enclosed propagated chosen =>
      simp only [Prod.mk.injEq, Answer.sat.injEq] at answer
      obtain ⟨rfl, rfl⟩ := answer
      obtain ⟨kept, bounds⟩ :=
        propagate_keeps inherited (List.forall_mem_cons.mp boxes).1 propagated
      exact ⟨kept, bounds ▸ isTrue_of_choose chosen⟩
  | case5 effort box waiting enclosed propagated input chosen within lower upper split induction =>
      rw [List.forall_mem_cons] at boxes
      obtain ⟨kept, -⟩ := propagate_keeps inherited boxes.1 propagated
      have parts := halved kept (width_ne_zero_of_choose chosen).2
      rw [split] at parts
      exact induction answer (by simpa using ⟨parts.1, parts.2, boxes.2⟩)

theorem isTrue_of_explore {budget : Nat} {effort effort' : Effort} {waiting : List Box}
    {found outer : Box} (answer : problem.explore budget effort waiting = (.sat found, effort'))
    (boxes : ∀ box ∈ waiting, box.Refines outer) :
    found.Refines outer ∧ ∀ root ∈ problem.roots,
      ((problem.circuit.enclose found).interval root.gate).isTrue = true :=
  keeps_of_explore (Box.Refines.inherited outer)
    (fun _ _ refines width => halves_refines refines width rfl) answer boxes

end Problem

end SymbolicSafety
