import SymbolicSafety.Proofs.Acceptance
import SymbolicSafety.Proofs.FixedInputs
import SymbolicSafety.Proofs.Interpolation

namespace SymbolicSafety

/-! How many decisions a search takes. Each decision splits the points of a box
into two parts that are not empty, so there are fewer decisions than points, no
matter whether the boxes are searched for a solution or projected. A search that
may take that many decisions only gives up where no input is left to split, and
without overflow there is no such place. -/

/-! ## Points of boxes -/

namespace Box

def count (box : Box) (inputs : List Nat) : Nat :=
  inputs.foldr (fun input product => ((box.getD input .full).width + 1) * product) 1

@[simp] theorem count_nil (box : Box) : box.count [] = 1 := rfl

@[simp] theorem count_cons (box : Box) (input : Nat) (rest : List Nat) :
    box.count (input :: rest) = ((box.getD input .full).width + 1) * box.count rest := rfl

theorem count_pos (box : Box) (inputs : List Nat) : 0 < box.count inputs := by
  induction inputs with
  | nil => exact Nat.one_pos
  | cons input rest induction => exact Nat.mul_pos (Nat.succ_pos _) induction

theorem count_le {box outer : Box} (refines : box.Refines outer) {inputs : List Nat}
    (valid : ∀ input ∈ inputs, input < outer.size) : box.count inputs ≤ outer.count inputs := by
  induction inputs with
  | nil => exact Nat.le_refl 1
  | cons input rest induction =>
      obtain ⟨less, later⟩ := List.forall_mem_cons.mp valid
      have held : outer[input]? = some outer[input] := by simp [less]
      have less' : input < box.size := refines.size ▸ less
      have found : box[input]? = some box[input] := by simp [less']
      have ordered := refines.ordered _ _ found
      have within := refines.within _ _ _ held found
      refine Nat.mul_le_mul (Nat.succ_le_succ ?_) (induction later)
      simp only [Array.getD_eq_getD_getElem?, held, found, Option.getD_some, Interval.width]
      omega

theorem count_setIfInBounds {box : Box} {input : Nat} {part : Interval} {inputs : List Nat}
    (other : input ∉ inputs) : count (box.setIfInBounds input part) inputs = box.count inputs := by
  induction inputs with
  | nil => rfl
  | cons head rest induction =>
      rw [List.mem_cons, not_or] at other
      rw [count_cons, count_cons, induction other.2]
      simp [Array.getD_eq_getD_getElem?, other.1]

theorem count_setIfInBounds_self {box : Box} {input : Nat} (less : input < box.size)
    (part : Interval) {rest : List Nat} (other : input ∉ rest) :
    count (box.setIfInBounds input part) (input :: rest) = (part.width + 1) * box.count rest := by
  rw [count_cons, count_setIfInBounds other]
  simp [Array.getD_eq_getD_getElem?, less]

end Box

theorem Interval.width_split {interval : Interval} (ordered : interval.lo ≤ interval.hi)
    (wide : interval.width ≠ 0) :
    (interval.split.1.width + 1) + (interval.split.2.width + 1) = interval.width + 1 := by
  have half : (interval.hi - interval.lo).tdiv 2 = (interval.hi - interval.lo) / 2 :=
    Int.tdiv_eq_ediv_of_nonneg (by omega)
  simp only [width, split, half] at *
  omega

namespace Problem

variable {box first second : Box} {input : Nat}

theorem count_halves (ordered : (box.getD input .full).lo ≤ (box.getD input .full).hi)
    (wide : (box.getD input .full).width ≠ 0) (less : input < box.size)
    (split : halves box input = (first, second)) {inputs : List Nat} (distinct : inputs.Nodup)
    (member : input ∈ inputs) : first.count inputs + second.count inputs = box.count inputs := by
  obtain ⟨rfl, rfl⟩ := Prod.mk.inj split
  induction inputs with
  | nil => cases member
  | cons head rest induction =>
      obtain ⟨fresh, distinct⟩ := List.nodup_cons.mp distinct
      rcases List.mem_cons.mp member with rfl | later
      · rw [Box.count_setIfInBounds_self less _ fresh, Box.count_setIfInBounds_self less _ fresh,
          Box.count_cons, ← Nat.add_mul, ← Interval.width_split ordered wide]
        rfl
      · have other : input ≠ head := by
          rintro rfl
          exact fresh later
        have same (part : Interval) :
            (box.setIfInBounds input part).getD head .full = box.getD head .full := by
          simp [Array.getD_eq_getD_getElem?, other]
        rw [Box.count_cons, Box.count_cons, Box.count_cons, same, same, ← Nat.mul_add,
          induction distinct later]

/-! ## Decisions -/

variable {problem : Problem} {enclosed : Enclosed} {waiting : List Box} {effort : Effort}

def allInputs (problem : Problem) : List Nat := List.range problem.circuit.inputs.size

theorem mem_allInputs {input : Nat} :
    input ∈ problem.allInputs ↔ input < problem.circuit.inputs.size := List.mem_range

theorem nodup_allInputs (problem : Problem) : problem.allInputs.Nodup := List.nodup_range

/-- The roots list inputs of the problem, and when all of these are fixed in a
box, the box is settled. -/
structure Searchable (problem : Problem) : Prop where
  valid : ∀ root ∈ problem.roots, problem.Indexes root.inputs
  settled : ∀ box enclosed, problem.circuit.IsBox box → problem.propagate box = .ok enclosed →
    problem.choose (fun _ => true) enclosed ≠ .stuck

theorem size_of_isBox (isBox : problem.circuit.IsBox box) :
    box.size = problem.circuit.inputs.size := by
  rw [isBox.size, Circuit.wholeBox, Array.size_map]

theorem count_halves_le (isBox : problem.circuit.IsBox box)
    (propagated : problem.propagate box = .ok enclosed) {allowed : Nat → Bool}
    (chosen : problem.choose allowed enclosed = .split input)
    (split : halves enclosed.box input = (first, second)) {inputs : List Nat}
    (distinct : inputs.Nodup) (valid : problem.Indexes inputs) (member : input ∈ inputs) :
    first.count inputs + second.count inputs ≤ box.count inputs := by
  have refines := (propagate_spec (.refl isBox.ordered) propagated).1
  have size := size_of_isBox isBox
  have less : input < enclosed.box.size := by
    rw [refines.size, size]
    exact valid input member
  have ordered : (enclosed.box.getD input .full).lo ≤ (enclosed.box.getD input .full).hi := by
    have found : enclosed.box[input]? = some enclosed.box[input] := by simp [less]
    rw [Array.getD_eq_getD_getElem?, found]
    exact refines.ordered _ _ found
  rw [count_halves ordered (width_ne_zero_of_choose chosen).2 less split distinct member]
  exact Box.count_le refines fun input member => size ▸ valid input member

def pending (problem : Problem) (waiting : List Box) : Nat :=
  waiting.foldr (fun box total => box.count problem.allInputs - 1 + total) 0

@[simp] theorem pending_cons : problem.pending (box :: waiting) =
    box.count problem.allInputs - 1 + problem.pending waiting := rfl

theorem pending_halves (searchable : problem.Searchable) (isBox : problem.circuit.IsBox box)
    (propagated : problem.propagate box = .ok enclosed) {allowed : Nat → Bool}
    (chosen : problem.choose allowed enclosed = .split input)
    (split : halves enclosed.box input = (first, second)) (waiting : List Box) :
    problem.pending (first :: second :: waiting) < problem.pending (box :: waiting) := by
  obtain ⟨root, inRoots, inRoot⟩ := exists_root_of_choose chosen
  have member := mem_allInputs.mpr (searchable.valid root inRoots input inRoot)
  have halved := count_halves_le isBox propagated chosen split problem.nodup_allInputs
    (fun _ => mem_allInputs.mp) member
  have firstPos := first.count_pos problem.allInputs
  have secondPos := second.count_pos problem.allInputs
  simp only [pending_cons]
  omega

/-- A search that may take as many decisions as there are points gives an answer
and takes no more of them. -/
theorem explore_within (searchable : problem.Searchable) {budget : Nat}
    (boxes : ∀ box ∈ waiting, problem.circuit.IsBox box)
    (enough : effort.decisions + problem.pending waiting ≤ budget) :
    (problem.explore budget effort waiting).1 ≠ .unknown ∧
      (problem.explore budget effort waiting).2.decisions ≤
        effort.decisions + problem.pending waiting := by
  fun_induction explore problem budget effort waiting with
  | case1 => exact ⟨by simp, Nat.le_add_right ..⟩
  | case2 effort box waiting left propagated induction =>
      obtain ⟨-, later⟩ := List.forall_mem_cons.mp boxes
      have same : effort.conflict.decisions = effort.decisions := rfl
      rw [pending_cons] at *
      obtain ⟨answered, few⟩ := induction later (by omega)
      exact ⟨answered, by omega⟩
  | case3 => exact ⟨by simp, Nat.le_add_right ..⟩
  | case4 effort box waiting enclosed propagated stuck =>
      exact absurd stuck (searchable.settled box enclosed (boxes box List.mem_cons_self) propagated)
  | case5 effort box waiting enclosed propagated input chosen within lower upper split induction =>
      obtain ⟨isBox, later⟩ := List.forall_mem_cons.mp boxes
      have fewer := pending_halves searchable isBox propagated chosen split waiting
      have more : effort.decision.decisions = effort.decisions + 1 := rfl
      obtain ⟨lowerBox, upperBox⟩ := halves_refines (propagate_spec isBox propagated).1
        (width_ne_zero_of_choose chosen).2 split
      obtain ⟨answered, few⟩ := induction (by simpa using ⟨lowerBox, upperBox, later⟩) (by omega)
      exact ⟨answered, by omega⟩
  | case6 effort box waiting enclosed propagated input chosen exhausted =>
      obtain ⟨isBox, -⟩ := List.forall_mem_cons.mp boxes
      have fewer := pending_halves searchable isBox propagated chosen rfl waiting
      omega

/-! ## Cubes -/

def pendingCubes (onto : List Nat) (waiting : List Box) : Nat :=
  waiting.foldr (fun box total => box.count onto + total) 0

@[simp] theorem pendingCubes_cons (onto : List Nat) : pendingCubes onto (box :: waiting) =
    box.count onto + pendingCubes onto waiting := rfl

variable {onto : List Nat} {limits : Limits} {cubes : Array Cube}

theorem choose_of_contribution {budget : Nat}
    (contributed : (problem.contribution onto budget effort enclosed).1 = .split input) :
    problem.choose onto.contains enclosed = .split input ∧
      (problem.contribution onto budget effort enclosed).2 = effort := by
  unfold contribution at contributed ⊢
  split at contributed
  next => simp at contributed
  next chosen =>
    obtain rfl := Contribution.split.inj contributed
    exact ⟨chosen, rfl⟩
  next => split at contributed <;> simp at contributed

theorem contribution_within (searchable : problem.Searchable) {budget : Nat}
    (isBox : problem.circuit.IsBox box) (propagated : problem.propagate box = .ok enclosed)
    (enough : effort.decisions + (box.count problem.allInputs - 1) ≤ budget) :
    (problem.contribution onto budget effort enclosed).1 ≠ .unknown ∧
      (problem.contribution onto budget effort enclosed).2.decisions ≤
        effort.decisions + (box.count problem.allInputs - 1) := by
  have refines := (propagate_spec (.refl isBox.ordered) propagated).1
  have smaller : enclosed.box.count problem.allInputs ≤ box.count problem.allInputs :=
    Box.count_le refines fun input member => size_of_isBox isBox ▸ mem_allInputs.mp member
  have alone : problem.pending [enclosed.box] = enclosed.box.count problem.allInputs - 1 := rfl
  have boxes : ∀ box ∈ [enclosed.box], problem.circuit.IsBox box :=
    List.forall_mem_singleton.mpr (propagate_spec isBox propagated).1
  have within : effort.decisions + problem.pending [enclosed.box] ≤ budget := by omega
  obtain ⟨answered, few⟩ := explore_within searchable boxes within
  unfold contribution
  split
  next => exact ⟨by simp, Nat.le_add_right ..⟩
  next => exact ⟨by simp, Nat.le_add_right ..⟩
  next =>
    split
    next found => exact ⟨by simp, by rw [found] at few; dsimp only at few ⊢; omega⟩
    next found => exact ⟨by simp, by rw [found] at few; dsimp only at few ⊢; omega⟩
    next found => simp [found] at answered

/-- A projection that may take as many decisions as there are points and as many
cubes as there are projected points comes to its end. -/
theorem exists_enumerate (searchable : problem.Searchable) (distinct : onto.Nodup)
    (valid : problem.Indexes onto) (boxes : ∀ box ∈ waiting, problem.circuit.IsBox box)
    (decisions : effort.decisions + problem.pending waiting ≤ limits.maxDecisions)
    (room : cubes.size + pendingCubes onto waiting ≤ limits.maxCubes) :
    ∃ result, problem.enumerate onto limits effort cubes waiting = .ok result := by
  fun_induction enumerate problem onto limits effort cubes waiting with
  | case1 => exact ⟨_, rfl⟩
  | case2 effort cubes box waiting left propagated induction =>
      have same : effort.conflict.decisions = effort.decisions := rfl
      rw [pending_cons] at decisions
      rw [pendingCubes_cons] at room
      exact induction (List.forall_mem_cons.mp boxes).2 (by omega) (by omega)
  | case3 effort cubes box waiting enclosed propagated more outcome contributed =>
      rw [pending_cons] at decisions
      exact absurd contributed (contribution_within searchable (boxes box List.mem_cons_self)
        propagated (by omega)).1
  | case4 effort cubes box waiting enclosed propagated more outcome contributed induction =>
      obtain ⟨isBox, later⟩ := List.forall_mem_cons.mp boxes
      rw [pending_cons] at decisions
      rw [pendingCubes_cons] at room
      have spent : outcome.2.decisions ≤ _ :=
        (contribution_within searchable isBox propagated (by omega)).2
      exact induction later (by omega) (by omega)
  | case5 effort cubes box waiting enclosed propagated more outcome contributed pushed full =>
      have positive := box.count_pos onto
      simp only [pushed, Array.size_push] at full
      rw [pendingCubes_cons] at room
      omega
  | case6 effort cubes box waiting enclosed propagated more outcome contributed pushed fits
      induction =>
      obtain ⟨isBox, later⟩ := List.forall_mem_cons.mp boxes
      have positive := box.count_pos onto
      have added : pushed = cubes.push (projected onto enclosed.box) := by
        simp [pushed, projected]
      rw [pending_cons] at decisions
      rw [pendingCubes_cons] at room
      have spent : outcome.2.decisions ≤ _ :=
        (contribution_within searchable isBox propagated (by omega)).2
      rw [added, Array.size_push] at fits induction
      simp only [Array.size_push, if_neg fits]
      exact induction later (by omega) (by omega)
  | case7 effort cubes box waiting enclosed propagated more outcome input contributed within
      lower upper split induction =>
      obtain ⟨isBox, later⟩ := List.forall_mem_cons.mp boxes
      obtain ⟨chosen, same⟩ := choose_of_contribution contributed
      have fewer := pending_halves searchable isBox propagated chosen split waiting
      have member : input ∈ onto := by simpa using (width_ne_zero_of_choose chosen).1
      have halved := count_halves_le isBox propagated chosen split distinct valid member
      obtain ⟨lowerBox, upperBox⟩ := halves_refines (propagate_spec isBox propagated).1
        (width_ne_zero_of_choose chosen).2 split
      have one : outcome.2.decision.decisions = effort.decisions + 1 :=
        congrArg (fun effort : Effort => effort.decisions + 1) same
      simp only [pendingCubes_cons] at room induction
      exact induction (by simpa using ⟨lowerBox, upperBox, later⟩) (by omega) (by omega)
  | case8 effort cubes box waiting enclosed propagated more outcome input contributed exhausted =>
      obtain ⟨chosen, same⟩ := choose_of_contribution contributed
      have fewer := pending_halves searchable (boxes box List.mem_cons_self) propagated chosen rfl
        waiting
      have spent : outcome.2.decisions = effort.decisions := congrArg Effort.decisions same
      omega

/-! ## Boxes without open inputs -/

section Settled

variable {formulas : List Formula} {valuation : Valuation}
  (boolean : ∀ formula ∈ formulas, formula.IsBoolean)
  (compiled : ofFormulas formulas = .ok problem)

include boolean compiled

theorem interval_of_stuck (stuck : problem.choose (fun _ => true) enclosed = .stuck)
    (isBox : problem.circuit.IsBox enclosed.box)
    (bounds : enclosed.bounds = problem.circuit.enclose enclosed.box)
    (inside : problem.circuit.Inside enclosed.box valuation.number) {formula conjunct : Formula}
    (member : formula ∈ formulas) (suits : valuation.Suits formula)
    (inConjuncts : conjunct ∈ formula.conjuncts) {root : Root} (inRoots : root ∈ problem.roots)
    (rootOf : problem.circuit.RootOf conjunct root)
    (undecided : (enclosed.bounds.interval root.gate).isTrue = false) {holds : Bool}
    (evaluated : conjunct.EvaluatesTo valuation (.bool holds)) :
    enclosed.bounds.interval root.gate = .point holds.toInt := by
  have fixed : problem.circuit.Fixes enclosed.box valuation conjunct := by
    refine ⟨fun symbol mentions => suits symbol
      ((formula.mentions_iff_conjuncts symbol).mpr ⟨conjunct, inConjuncts, mentions⟩),
      fun index input held mentions => Interval.isPoint_of_width ?_⟩
    have inRoot := (rootOf.inputs index).mpr ⟨input, held, mentions⟩
    exact width_eq_zero_of_choose stuck inRoots undecided inRoot rfl
  rw [bounds]
  exact rootOf.realized.interval_eq_point (represents_ofFormulas boolean compiled).wellFormed isBox
    inside (hasSort_conjuncts (boolean formula member) inConjuncts) fixed evaluated

/-- Where no input is left to split, a formula that does not overflow is true or
false. In the one case no conjunct is undecided, and in the other the box is
refuted. -/
theorem not_stuck (inRange : ∀ formula ∈ formulas, formula.StaysInRange)
    (isBox : problem.circuit.IsBox box) (propagated : problem.propagate box = .ok enclosed) :
    problem.choose (fun _ => true) enclosed ≠ .stuck := by
  intro stuck
  have represents := represents_ofFormulas boolean compiled
  obtain ⟨isBox', bounds⟩ := propagate_spec isBox propagated
  obtain ⟨inside, admits⟩ := admits_valuation boolean compiled isBox'
  obtain ⟨root, inRoots, undecided⟩ := exists_undecided_of_choose stuck
  obtain ⟨conjunct, inFlat, rootOf⟩ := represents.justified root inRoots
  obtain ⟨formula, member, inConjuncts⟩ := List.mem_flatMap.mp inFlat
  have suits := (admits formula member).suits
  have evaluates := evaluate_of_conjuncts boolean compiled member suits
    fun conjunct inConjuncts root inRoots rootOf isFalse => by
      cases decided : (enclosed.bounds.interval root.gate).isTrue with
      | true =>
          exact not_false_of_isTrue boolean compiled isBox' inside member suits inConjuncts rootOf
            (bounds ▸ decided) isFalse
      | false =>
          have refuted := not_refuted_of_propagate propagated
          have zero := interval_of_stuck boolean compiled stuck isBox' bounds inside member suits
            inConjuncts inRoots rootOf decided isFalse
          simp only [Problem.refuted, List.any_eq_false] at refuted
          exact absurd (refuted root inRoots) (by simp [zero, Interval.isFalse, Interval.false])
  rcases evaluates with holds | ⟨fault, overflow⟩
  · have evaluated := formula.evaluatesTo_true_iff_conjuncts.mp
      ((formula.evaluate_eq_ok_iff _).mp holds) conjunct inConjuncts
    have one := interval_of_stuck boolean compiled stuck isBox' bounds inside member suits
      inConjuncts inRoots rootOf undecided evaluated
    simp [one, Interval.isTrue, Interval.true] at undecided
  · exact inRange formula member _ (admits formula member) fault overflow

theorem searchable_ofFormulas (inRange : ∀ formula ∈ formulas, formula.StaysInRange) :
    problem.Searchable where
  valid root inRoots index inRoot := by
    obtain ⟨conjunct, -, rootOf⟩ :=
      (represents_ofFormulas boolean compiled).justified root inRoots
    obtain ⟨input, held, -⟩ := (rootOf.inputs index).mp inRoot
    exact (Array.getElem?_eq_some_iff.mp held).1
  settled _ _ isBox propagated := not_stuck boolean compiled inRange isBox propagated

end Settled

end Problem

/-! ## Points of symbols -/

/-- The symbols of the formulas, each of them once. -/
def symbolsOf (formulas : List Formula) : List Symbol :=
  (formulas.flatMap fun formula => formula.symbols.keys).eraseDups

theorem mem_symbolsOf {formulas : List Formula} {symbol : Symbol} :
    symbol ∈ symbolsOf formulas ↔ ∃ formula ∈ formulas, formula.Mentions symbol := by
  simp only [symbolsOf, List.mem_eraseDups, List.mem_flatMap, Formula.mem_symbols_iff]

/-- How many points there are, which is the product of the domain sizes. -/
def pointCount (symbols : List Symbol) : Nat :=
  symbols.foldr (fun symbol product => symbol.domain.size?.getD 0 * product) 1

@[simp] theorem pointCount_cons (symbol : Symbol) (rest : List Symbol) :
    pointCount (symbol :: rest) = symbol.domain.size?.getD 0 * pointCount rest := rfl

theorem Domain.Proper.size?_of_interval {domain : Domain} {interval : Interval}
    (proper : domain.Proper) (finite : domain.interval? = some interval) :
    domain.size?.getD 0 = interval.width + 1 := by
  have ordered := proper.ordered finite
  cases domain with
  | int => cases finite
  | bool =>
      obtain rfl := Option.some.inj finite
      rfl
  | range least greatest =>
      obtain rfl := Option.some.inj finite
      have lower : -2 ^ 63 ≤ least.toInt := least.le_toInt
      have upper : greatest.toInt ≤ 2 ^ 63 - 1 := greatest.toInt_le
      simp only [size?, Option.getD_some, Interval.width] at ordered ⊢
      rw [Int.emod_eq_of_lt (by omega) (by omega)]
      omega

theorem pointCount_erase {symbols : List Symbol} {symbol : Symbol} (member : symbol ∈ symbols) :
    pointCount symbols = symbol.domain.size?.getD 0 * pointCount (symbols.erase symbol) := by
  induction symbols with
  | nil => cases member
  | cons head rest induction =>
      by_cases same : head = symbol
      · rw [same, List.erase_cons_head, pointCount_cons]
      · have later : symbol ∈ rest := by simpa [Ne.symm same] using member
        rw [List.erase_cons_tail (by simpa using same), pointCount_cons, pointCount_cons,
          induction later, Nat.mul_left_comm]

theorem pointCount_pos {symbols : List Symbol}
    (proper : ∀ symbol ∈ symbols, symbol.domain.Proper) : 0 < pointCount symbols := by
  induction symbols with
  | nil => exact Nat.one_pos
  | cons symbol rest induction =>
      obtain ⟨first, others⟩ := List.forall_mem_cons.mp proper
      obtain ⟨interval, finite⟩ := first.exists_interval
      rw [pointCount_cons, first.size?_of_interval finite]
      exact Nat.mul_pos (Nat.succ_pos _) (induction others)

theorem pointCount_le {few many : List Symbol} (distinct : few.Nodup)
    (proper : ∀ symbol ∈ many, symbol.domain.Proper) (subset : ∀ symbol ∈ few, symbol ∈ many) :
    pointCount few ≤ pointCount many := by
  induction few generalizing many with
  | nil => exact pointCount_pos proper
  | cons symbol rest induction =>
      obtain ⟨fresh, distinct⟩ := List.nodup_cons.mp distinct
      obtain ⟨member, later⟩ := List.forall_mem_cons.mp subset
      rw [pointCount_cons, pointCount_erase member]
      refine Nat.mul_le_mul_left _ (induction distinct ?_ fun other inRest => ?_)
      · exact fun other remains => proper other (List.mem_of_mem_erase remains)
      · have different : other ≠ symbol := fun same => fresh (same ▸ inRest)
        exact (List.mem_erase_of_ne different).mpr (later other inRest)

namespace Problem

variable {problem : Problem} {onto : List Nat}

theorem count_wholeBox (wellFormed : problem.circuit.WellFormed) (valid : problem.Indexes onto)
    (proper : ∀ input ∈ problem.inputsAt onto, input.symbol.domain.Proper) :
    problem.circuit.wholeBox.count onto =
      pointCount ((problem.inputsAt onto).map Input.symbol) := by
  induction onto with
  | nil => rfl
  | cons index rest induction =>
      obtain ⟨less, later⟩ := List.forall_mem_cons.mp valid
      have held : problem.circuit.inputs[index]? = some problem.circuit.inputs[index] := by
        simp [less]
      have listed : problem.inputsAt (index :: rest) =
          problem.circuit.inputs[index] :: problem.inputsAt rest := by simp [inputsAt, held]
      rw [listed] at proper ⊢
      obtain ⟨first, others⟩ := List.forall_mem_cons.mp proper
      rw [Box.count_cons, List.map_cons, pointCount_cons, induction later others,
        first.size?_of_interval (wellFormed.finite index _ held), Array.getD_eq_getD_getElem?,
        Circuit.wholeBox_getElem?.mpr ⟨_, held, rfl⟩, Option.getD_some]

theorem nodup_inputsAt (wellFormed : problem.circuit.WellFormed) (distinct : onto.Nodup) :
    ((problem.inputsAt onto).map Input.symbol).Nodup := by
  induction onto with
  | nil => exact List.nodup_nil
  | cons index rest induction =>
      obtain ⟨fresh, distinct⟩ := List.nodup_cons.mp distinct
      cases held : problem.circuit.inputs[index]? with
      | none => simpa [inputsAt, held] using induction distinct
      | some input =>
          have listed : problem.inputsAt (index :: rest) = input :: problem.inputsAt rest := by
            simp [inputsAt, held]
          rw [listed, List.map_cons, List.nodup_cons]
          refine ⟨fun again => ?_, induction distinct⟩
          obtain ⟨other, member, same⟩ := List.mem_map.mp again
          obtain ⟨index', inRest, held'⟩ := mem_inputsAt.mp member
          exact fresh (wellFormed.distinct _ _ _ _ held' held same ▸ inRest)

theorem count_wholeBox_le (wellFormed : problem.circuit.WellFormed) (distinct : onto.Nodup)
    (valid : problem.Indexes onto) {symbols : List Symbol}
    (proper : ∀ symbol ∈ symbols, symbol.domain.Proper)
    (subset : ∀ input ∈ problem.inputsAt onto, input.symbol ∈ symbols) :
    problem.circuit.wholeBox.count onto ≤ pointCount symbols := by
  rw [count_wholeBox wellFormed valid fun input member => proper _ (subset input member)]
  refine pointCount_le (nodup_inputsAt wellFormed distinct) proper fun symbol member => ?_
  obtain ⟨input, inInputs, rfl⟩ := List.mem_map.mp member
  exact subset input inInputs

end Problem

namespace Solver

variable {solver : Solver} {pattern : Pattern}

/-! ## Answers within the budget -/

/-- The symbols that both groups mention, each of them once. -/
def commonSymbols (solver : Solver) (pattern : Pattern) : List Symbol :=
  (symbolsOf (solver.group pattern.first)).filter fun symbol =>
    (symbolsOf (solver.group pattern.second)).contains symbol

theorem mem_commonSymbols_iff {symbol : Symbol} :
    symbol ∈ solver.commonSymbols pattern ↔ solver.Shares pattern symbol := by
  simp only [commonSymbols, List.mem_filter, List.contains_iff_mem, mem_symbolsOf, Shares]

section

variable {formulas : List Formula} {problem : Problem} {symbols : List Symbol}
  (assertable : ∀ formula ∈ formulas, Assertable formula)
  (compiled : Problem.ofFormulas formulas = .ok problem)
  (proper : ∀ symbol ∈ symbols, symbol.domain.Proper)
  (listed : ∀ formula ∈ formulas, ∀ symbol, formula.Mentions symbol → symbol ∈ symbols)

include assertable compiled proper listed

theorem pending_wholeBox_le :
    problem.pending [problem.circuit.wholeBox] ≤ pointCount symbols - 1 := by
  have represents := Problem.represents_ofFormulas
    (fun formula member => (assertable formula member).isBoolean) compiled
  refine Nat.sub_le_sub_right (Problem.count_wholeBox_le represents.wellFormed
    problem.nodup_allInputs (fun _ => Problem.mem_allInputs.mp) proper fun input member => ?_) 1
  obtain ⟨index, -, held⟩ := Problem.mem_inputsAt.mp member
  obtain ⟨conjunct, inFlat, mentions⟩ := represents.named input (Array.mem_of_getElem? held)
  obtain ⟨formula, inFormulas, inConjuncts⟩ := List.mem_flatMap.mp inFlat
  exact listed formula inFormulas input.symbol
    ((formula.mentions_iff_conjuncts _).mpr ⟨conjunct, inConjuncts, mentions⟩)

theorem isBox_of_listed : problem.circuit.IsBox problem.circuit.wholeBox :=
  Problem.isBox_of_proper (fun formula member => (assertable formula member).isBoolean) compiled
    fun formula member symbol mentions => proper symbol (listed formula member symbol mentions)

variable (inRange : ∀ formula ∈ formulas, formula.StaysInRange)

include inRange

theorem answer_ne_unknown {budget : Nat} (enough : pointCount symbols - 1 ≤ budget) :
    (problem.solve budget).1 ≠ .unknown := by
  have searchable := Problem.searchable_ofFormulas
    (fun formula member => (assertable formula member).isBoolean) compiled inRange
  have few := pending_wholeBox_le assertable compiled proper listed
  have none : Effort.none.decisions = 0 := rfl
  exact (Problem.explore_within searchable
    (List.forall_mem_singleton.mpr (isBox_of_listed assertable compiled proper listed))
    (by omega)).1

theorem exists_project {others : List Formula} {shared : List Symbol}
    (properShared : ∀ symbol ∈ shared, symbol.domain.Proper)
    (listedShared : ∀ input ∈ problem.inputsAt (sharedInputs problem others),
      input.symbol ∈ shared)
    {limits : Limits} (decisions : pointCount symbols - 1 ≤ limits.maxDecisions)
    (cubes : pointCount shared ≤ limits.maxCubes) :
    ∃ result, problem.project (sharedInputs problem others) limits = .ok result := by
  have boolean := fun formula member => (assertable formula member).isBoolean
  have wellFormed := (Problem.represents_ofFormulas boolean compiled).wellFormed
  have valid : problem.Indexes (sharedInputs problem others) := fun index member => by
    obtain ⟨input, held, -⟩ := mem_sharedInputs.mp member
    exact (Array.getElem?_eq_some_iff.mp held).1
  have distinct : (sharedInputs problem others).Nodup := List.nodup_range.filter _
  have few := pending_wholeBox_le assertable compiled proper listed
  have fewCubes := Problem.count_wholeBox_le wellFormed distinct valid properShared listedShared
  have none : Effort.none.decisions = 0 := rfl
  refine Problem.exists_enumerate (Problem.searchable_ofFormulas boolean compiled inRange) distinct
    valid (List.forall_mem_singleton.mpr (isBox_of_listed assertable compiled proper listed))
    (by omega) ?_
  simpa [Problem.pendingCubes] using Nat.le_trans fewCubes cubes

end

theorem exists_interpolant
    (owned : solver.owns pattern.first = true ∧ solver.owns pattern.second = true)
    (refuted : solver.status = some .unsat) (inside : solver.outsiders pattern = [])
    {problem : Problem} (compiled : Problem.ofFormulas (solver.group pattern.first) = .ok problem)
    {result : Array Cube × Effort}
    (projected : problem.project (sharedInputs problem (solver.group pattern.second))
      solver.limits = .ok result) :
    ∃ interpolant answered, solver.interpolant pattern = .ok (interpolant, answered) := by
  simp only [interpolant, owned, refuted, inside, compiled, Outcome.mapError_ok, Outcome.ok_bind,
    Bool.and_self, Bool.not_true, Bool.false_eq_true, if_false, ne_eq, not_true_eq_false,
    projected]
  exact ⟨_, _, rfl⟩

/-- If the assertions never overflow and the solver may take one decision less
than their symbols have points, it answers every check. If it also may use as
many cubes as the shared symbols have points, then after a refutation there is
an interpolant for every pattern that covers the markers in use. -/
theorem decides_within_budget (reachable : solver.Reachable)
    (proper : ∀ formula ∈ solver.formulas, formula.Proper)
    (inRange : ∀ formula ∈ solver.formulas, formula.StaysInRange)
    (decisions : pointCount (symbolsOf solver.formulas) - 1 ≤ solver.limits.maxDecisions) :
    (∃ status checked, solver.check = .ok (status, checked) ∧
      (status = .sat ∨ status = .unsat)) ∧
    (solver.status = some .unsat → ∀ pattern : Pattern,
      solver.owns pattern.first = true ∧ solver.owns pattern.second = true →
      solver.outsiders pattern = [] →
      pointCount (solver.commonSymbols pattern) ≤ solver.limits.maxCubes →
      ∃ interpolant answered, solver.interpolant pattern = .ok (interpolant, answered)) := by
  have assertable := reachable.consistent.assertable
  have bounded {formula : Formula} (member : formula ∈ solver.formulas) : formula.Bounded :=
    ⟨(assertable formula member).primeFree, fun _ => (assertable formula member).exists_interval⟩
  have properSymbols : ∀ symbol ∈ symbolsOf solver.formulas, symbol.domain.Proper := by
    intro symbol member
    obtain ⟨formula, inFormulas, mentions⟩ := mem_symbolsOf.mp member
    exact proper formula inFormulas symbol mentions
  have listed {formula : Formula} (member : formula ∈ solver.formulas) (symbol : Symbol)
      (mentions : formula.Mentions symbol) : symbol ∈ symbolsOf solver.formulas :=
    mem_symbolsOf.mpr ⟨formula, member, mentions⟩
  constructor
  · obtain ⟨status, checked, answered⟩ := exists_check fun _ => bounded
    obtain ⟨problem, answer, effort, compiled, solved, rfl, -⟩ := check_eq_ok answered
    have decided := answer_ne_unknown assertable compiled properSymbols (fun _ => listed) inRange
      decisions
    rw [solved] at decided
    refine ⟨_, checked, answered, ?_⟩
    cases answer with
    | sat => exact .inl rfl
    | unsat => exact .inr rfl
    | unknown => exact absurd rfl decided
  · intro refuted pattern owned inside cubes
    have inFormulas {formula : Formula} (member : formula ∈ solver.group pattern.first) :
        formula ∈ solver.formulas := mem_formulas_of_mem_group member
    have boolean : ∀ formula ∈ solver.group pattern.first, formula.IsBoolean :=
      fun formula member => (assertable formula (inFormulas member)).isBoolean
    obtain ⟨problem, compiled⟩ :=
      Problem.exists_ofFormulas fun _ member => bounded (inFormulas member)
    have properShared : ∀ symbol ∈ solver.commonSymbols pattern, symbol.domain.Proper := by
      intro symbol member
      obtain ⟨⟨formula, inGroup, mentions⟩, -⟩ := mem_commonSymbols_iff.mp member
      exact proper formula (inFormulas inGroup) symbol mentions
    obtain ⟨result, projected⟩ := exists_project
      (fun formula member => assertable formula (inFormulas member)) compiled properSymbols
      (fun _ member => listed (inFormulas member))
      (fun formula member => inRange formula (inFormulas member)) properShared
      (fun input member => mem_commonSymbols_iff.mpr
        ((exists_inputsAt_iff boolean compiled _).mp ⟨input, member, rfl⟩)) decisions cubes
    exact exists_interpolant owned refuted inside compiled projected

/-! ## A budget that is just enough -/

def square (total : Int64) : Formula :=
  let operand : Formula := .current ⟨0, "x", .range 0 3⟩
  .binary .eq (.nary .mul [operand, operand]) (.int total)

def squaring (assertions : List Assertion) : Solver :=
  { new 0 ⟨3, 4⟩ with nextMarker := 2, assertions := assertions }

def squares : Solver := squaring [⟨some ⟨0, 0⟩, square 4⟩, ⟨some ⟨0, 1⟩, square 1⟩]

private theorem reachable_squaring {assertions : List Assertion} {id : Nat} {total : Int64}
    (reachable : (squaring assertions).Reachable) (owned : id < 2)
    (assertable : Assertable (square total)) :
    (squaring (assertions ++ [⟨some ⟨0, id⟩, square total⟩])).Reachable := by
  have owns : (squaring assertions).owns ⟨0, id⟩ = true := decide_eq_true owned
  exact reachable.addTo (addTo_eq_ok_iff.mpr ⟨owns, assert_eq_ok_iff.mpr ⟨assertable, rfl⟩⟩)

private theorem reachable_squares : squares.Reachable := by
  have marked : (squaring []).Reachable := .createMarker (.createMarker (.new 0 ⟨3, 4⟩))
  have first :=
    reachable_squaring marked Nat.zero_lt_two (by decide +kernel : Assertable (square 4))
  exact reachable_squaring first Nat.one_lt_two (by decide +kernel : Assertable (square 1))

private theorem proper_square (total : Int64) : (square total).Proper := by
  intro symbol mentions
  obtain rfl : symbol = .current ⟨0, "x", .range 0 3⟩ := by
    simpa [square, Formula.current] using mentions
  decide

private theorem staysInRange_square (total : Int64) : (square total).StaysInRange := by
  refine Formula.staysInRange_of_evaluatesTo fun valuation admits => ?_
  obtain ⟨word, evaluated, least, greatest⟩ := admits.exists_evaluatesTo
    (.current ⟨0, "x", .range 0 3⟩) (by simp [square, Formula.current]) rfl
  obtain ⟨product, multiplied⟩ : ∃ product, [word, word].foldlM Word.mul? 1 = some product := by
    obtain rfl | rfl | rfl | rfl : word = 0 ∨ word = 1 ∨ word = 2 ∨ word = 3 := by
      simp only [← Int64.toInt_inj, Int64.reduceToInt] at *
      omega
    all_goals exact ⟨_, rfl⟩
  have squared : (Formula.nary .mul [.current ⟨0, "x", .range 0 3⟩,
      .current ⟨0, "x", .range 0 3⟩]).EvaluatesTo valuation (.int product) :=
    @Formula.EvaluatesTo.product _ _ (fun _ => word) product
      (by simpa [Formula.current] using evaluated) multiplied
  exact ⟨_, .binary (by decide) squared (.int total) rfl⟩

private theorem within_squares {solver : Solver} (same : solver.formulas = squares.formulas) :
    (∀ formula ∈ solver.formulas, formula.Proper) ∧
      ∀ formula ∈ solver.formulas, formula.StaysInRange := by
  have known : ∀ formula ∈ squares.formulas, formula = square 4 ∨ formula = square 1 := by
    simp [squares, squaring, formulas]
  rw [same]
  constructor
  · intro formula member
    rcases known formula member with rfl | rfl <;> exact proper_square _
  · intro formula member
    rcases known formula member with rfl | rfl <;> exact staysInRange_square _

/-- The number cannot be both. That takes a decision, and so does the interpolant,
which makes the number two. -/
theorem decides_within_budget_squares :
    squares.Reachable ∧ pointCount (symbolsOf squares.formulas) - 1 = squares.limits.maxDecisions ∧
      (∃ status checked, squares.check = .ok (status, checked) ∧
        (status = .sat ∨ status = .unsat)) ∧
      ∃ checked, squares.check = .ok (.unsat, checked) ∧ checked.counts.decisions = 1 ∧
        pointCount (checked.commonSymbols ⟨⟨0, 0⟩, ⟨0, 1⟩⟩) = checked.limits.maxCubes ∧
        ∃ interpolant answered,
          checked.interpolant ⟨⟨0, 0⟩, ⟨0, 1⟩⟩ = .ok (interpolant, answered) := by
  have reachable := reachable_squares
  have budget : pointCount (symbolsOf squares.formulas) - 1 = squares.limits.maxDecisions := by
    decide +kernel
  obtain ⟨proper, inRange⟩ := within_squares rfl
  have decided := (decides_within_budget reachable proper inRange (Nat.le_of_eq budget)).1
  obtain ⟨checked, refuted, searched⟩ : ∃ checked, squares.check = .ok (.unsat, checked) ∧
      decide (checked.counts.decisions = 1) := Outcome.exists_pair_of_any (by decide +kernel)
  obtain ⟨problem, answer, -, -, -, status, last, assertions, -, limits, id, nextMarker⟩ :=
    check_eq_ok refuted
  have formulas : checked.formulas = squares.formulas := by
    rw [Solver.formulas, Solver.formulas, assertions]
  obtain ⟨proper, inRange⟩ := within_squares formulas
  have isRefuted : checked.status = some .unsat := by
    rw [Solver.status, last, Option.map_some, ← status]
  have owned : checked.owns ⟨0, 0⟩ = true ∧ checked.owns ⟨0, 1⟩ = true := by
    rw [owns, owns, id, nextMarker]
    decide
  have inside : checked.outsiders ⟨⟨0, 0⟩, ⟨0, 1⟩⟩ = [] := by
    rw [outsiders, assertions]
    rfl
  have cubes : pointCount (checked.commonSymbols ⟨⟨0, 0⟩, ⟨0, 1⟩⟩) = checked.limits.maxCubes := by
    rw [commonSymbols, group, group, assertions, limits]
    decide +kernel
  have budget' : pointCount (symbolsOf checked.formulas) - 1 ≤ checked.limits.maxDecisions := by
    rw [formulas, limits]
    exact Nat.le_of_eq budget
  exact ⟨reachable, budget, decided, checked, refuted, of_decide_eq_true searched, cubes,
    (decides_within_budget (.check reachable refuted) proper inRange budget').2 isRefuted _ owned
      inside (Nat.le_of_eq cubes)⟩

end Solver

end SymbolicSafety
