import SymbolicSafety.Proofs.GateValues
import SymbolicSafety.Proofs.Sorting
import SymbolicSafety.Search.Propagation

namespace SymbolicSafety

/-! Narrowing loses no solution: a demand that the numbers of the gates meet is
granted, and the state it leaves still holds these numbers. Whatever the
demands are, boxes only shrink and never become empty. -/

structure Narrowing.Holds (state : Narrowing) (circuit : Circuit) (numbers : Symbol → Int) :
    Prop where
  bounds : ∀ gate value, circuit.Yields numbers gate value → value ∈ state.interval gate
  box : circuit.Inside state.box numbers

/-- A demand that is met succeeds and keeps what holds. -/
def Narrow.Sound (narrow : Narrow) (circuit : Circuit) (numbers : Symbol → Int) : Prop :=
  ∀ ⦃gate : Nat⦄ ⦃target : Interval⦄ ⦃state : Narrowing⦄ ⦃value : Int⦄,
    state.Holds circuit numbers → circuit.Yields numbers gate value → value ∈ target →
    ∃ narrowed, narrow gate target state = .ok narrowed ∧ narrowed.Holds circuit numbers

theorem mem_setIfInBounds {intervals : Array Interval} {position other : Nat} {part : Interval}
    {value : Int} (kept : value ∈ intervals.getD other .full)
    (replaced : position = other → value ∈ part) :
    value ∈ (intervals.setIfInBounds position part).getD other .full := by
  simp only [Array.getD_eq_getD_getElem?, Array.getElem?_setIfInBounds] at kept ⊢
  split
  next same =>
    split
    · exact replaced same
    next outside => simpa [← same, outside] using kept
  next => exact kept

namespace Gate

variable {narrow : Narrow} {circuit : Circuit} {numbers : Symbol → Int} {state : Narrowing}

/-! ## Comparisons -/

private theorem exclude_sound (sound : narrow.Sound circuit numbers)
    (holds : state.Holds circuit numbers) {gate : Nat} {value excluded : Int}
    (yields : circuit.Yields numbers gate value) (different : value ≠ excluded) :
    ∃ narrowed, exclude narrow gate excluded state = .ok narrowed ∧
      narrowed.Holds circuit numbers := by
  have member := holds.bounds gate value yields
  simp only [exclude]
  split
  next only =>
    rw [only, Interval.mem_point] at member
    exact absurd member different
  next =>
    rw [Interval.mem_iff] at member
    have above (least : (state.interval gate).lo = excluded) : excluded + 1 ≤ value := by omega
    have below (greatest : (state.interval gate).hi = excluded) : value ≤ excluded - 1 := by omega
    split
    next least => exact sound holds yields ⟨above least, member.2⟩
    next =>
      split
      next greatest => exact sound holds yields ⟨member.1, below greatest⟩
      next => exact ⟨state, rfl, holds⟩

private theorem narrowComparison_sound (sound : narrow.Sound circuit numbers)
    (holds : state.Holds circuit numbers) {comparison : Comparison} {left right : Nat}
    {first second : Int} (leftYields : circuit.Yields numbers left first)
    (rightYields : circuit.Yields numbers right second)
    (met : comparison.holds first second = true) :
    ∃ narrowed, narrowComparison narrow comparison left right state = .ok narrowed ∧
      narrowed.Holds circuit numbers := by
  have inFirst := holds.bounds left first leftYields
  have inSecond := holds.bounds right second rightYields
  have firstFits := leftYields.small.fits
  have secondFits := rightYields.small.fits
  cases comparison with
  | eq =>
      obtain rfl : first = second := by simpa [Comparison.holds] using met
      obtain ⟨between, narrowed, holds'⟩ := sound holds leftYields inSecond
      simp only [narrowComparison, narrowed, Outcome.ok_bind]
      exact sound holds' rightYields (holds'.bounds left first leftYields)
  | neq =>
      have different : first ≠ second := by simpa [Comparison.holds] using met
      have second' {between : Narrowing} (holds : between.Holds circuit numbers) :
          ∃ narrowed, (if (between.interval left).isPoint then
            exclude narrow right (between.interval left).lo between else .ok between) =
              .ok narrowed ∧ narrowed.Holds circuit numbers := by
        split
        next isPoint =>
          rw [Interval.mem_of_isPoint isPoint (holds.bounds left first leftYields)]
          exact exclude_sound sound holds rightYields different.symm
        next => exact ⟨between, rfl, holds⟩
      simp only [narrowComparison]
      split
      next isPoint =>
        rw [Interval.mem_of_isPoint isPoint inSecond]
        obtain ⟨between, narrowed, holds'⟩ := exclude_sound sound holds leftYields different
        simp only [Interval.point, narrowed, Outcome.ok_bind]
        exact second' holds'
      next => exact second' holds
  | lt =>
      have less : first < second := by simpa [Comparison.holds] using met
      have leftTarget : first ∈
          Interval.mk Wide.least (Wide.sub (state.interval right).hi 1) :=
        ⟨firstFits.1, Wide.le_saturate firstFits (by have := inSecond.2; omega)⟩
      have rightTarget : second ∈
          Interval.mk (Wide.add (state.interval left).lo 1) Wide.greatest :=
        ⟨Wide.saturate_le secondFits (by have := inFirst.1; omega), secondFits.2⟩
      obtain ⟨between, narrowed, holds'⟩ := sound holds leftYields leftTarget
      simp only [narrowComparison, narrowed, Outcome.ok_bind]
      exact sound holds' rightYields rightTarget
  | leq =>
      have lessOrEqual : first ≤ second := by simpa [Comparison.holds] using met
      have leftTarget : first ∈ Interval.mk Wide.least (state.interval right).hi :=
        ⟨firstFits.1, Int.le_trans lessOrEqual inSecond.2⟩
      have rightTarget : second ∈ Interval.mk (state.interval left).lo Wide.greatest :=
        ⟨Int.le_trans inFirst.1 lessOrEqual, secondFits.2⟩
      obtain ⟨between, narrowed, holds'⟩ := sound holds leftYields leftTarget
      simp only [narrowComparison, narrowed, Outcome.ok_bind]
      exact sound holds' rightYields rightTarget

private theorem narrowOpposite_sound (sound : narrow.Sound circuit numbers)
    (holds : state.Holds circuit numbers) {comparison : Comparison} {left right : Nat}
    {first second : Int} (leftYields : circuit.Yields numbers left first)
    (rightYields : circuit.Yields numbers right second)
    (failed : comparison.holds first second = false) :
    ∃ narrowed, narrowOpposite narrow comparison left right state = .ok narrowed ∧
      narrowed.Holds circuit numbers := by
  cases comparison with
  | eq =>
      have opposite : Comparison.neq.holds first second = true := by
        simpa [Comparison.holds] using failed
      exact narrowComparison_sound sound holds leftYields rightYields opposite
  | neq =>
      have opposite : Comparison.eq.holds first second = true := by
        simpa [Comparison.holds] using failed
      exact narrowComparison_sound sound holds leftYields rightYields opposite
  | lt =>
      have opposite : Comparison.leq.holds second first = true := by
        simpa [Comparison.holds] using failed
      exact narrowComparison_sound sound holds rightYields leftYields opposite
  | leq =>
      have opposite : Comparison.lt.holds second first = true := by
        simpa [Comparison.holds] using failed
      exact narrowComparison_sound sound holds rightYields leftYields opposite

/-! ## Conjunctions and disjunctions -/

private theorem narrowAll_sound (sound : narrow.Sound circuit numbers)
    (holds : state.Holds circuit numbers) {target : Interval} {gates : List Nat} {value : Int}
    (each : ∀ gate ∈ gates, circuit.Yields numbers gate value) (member : value ∈ target) :
    ∃ narrowed, narrowAll narrow target gates state = .ok narrowed ∧
      narrowed.Holds circuit numbers := by
  induction gates generalizing state with
  | nil => exact ⟨state, rfl, holds⟩
  | cons head rest induction =>
      rw [List.forall_mem_cons] at each
      obtain ⟨between, narrowed, holds'⟩ := sound holds each.1 member
      obtain ⟨last, narrowedRest, holds''⟩ := induction holds' each.2
      refine ⟨last, ?_, holds''⟩
      rw [narrowAll] at narrowedRest ⊢
      rw [List.foldlM_cons, narrowed]
      exact narrowedRest

private theorem narrowJunction_sound (sound : narrow.Sound circuit numbers)
    (holds : state.Holds circuit numbers) {neutral absorbing value : Int}
    {operands : List Nat} {target : Interval} (different : neutral ≠ absorbing)
    (outcome : (value = neutral ∧ ∀ operand ∈ operands, circuit.Yields numbers operand neutral) ∨
      (value = absorbing ∧ ∃ operand ∈ operands, circuit.Yields numbers operand absorbing))
    (member : value ∈ target) :
    ∃ narrowed, narrowJunction narrow (.point neutral) (.point absorbing) operands target state =
      .ok narrowed ∧ narrowed.Holds circuit numbers := by
  unfold narrowJunction
  split
  next isNeutral =>
    rw [isNeutral, Interval.mem_point] at member
    rcases outcome with ⟨-, each⟩ | ⟨isAbsorbing, -⟩
    · exact narrowAll_sound sound holds each ((Interval.mem_point _ _).mpr rfl)
    · exact absurd (member.symm.trans isAbsorbing) different
  next =>
    split
    next isAbsorbing =>
      rw [isAbsorbing, Interval.mem_point] at member
      obtain ⟨operand, inOperands, yields⟩ :
          ∃ operand ∈ operands, circuit.Yields numbers operand absorbing := by
        rcases outcome with ⟨isNeutral, -⟩ | ⟨-, found⟩
        · exact absurd (isNeutral.symm.trans member) different
        · exact found
      -- The operand that has the absorbing value is still a candidate.
      have candidate : operand ∈
          operands.filter fun operand => state.interval operand ≠ .point neutral := by
        refine List.mem_filter.mpr ⟨inOperands, ?_⟩
        have held := holds.bounds operand absorbing yields
        simp only [ne_eq, decide_not, Bool.not_eq_eq_eq_not, Bool.not_true,
          decide_eq_false_iff_not]
        intro isNeutral
        rw [isNeutral, Interval.mem_point] at held
        exact different held.symm
      split
      · exact ⟨state, rfl, holds⟩
      · split
        next empty =>
          rw [empty] at candidate
          simp at candidate
        next only single =>
          rw [single] at candidate
          obtain rfl := List.mem_singleton.mp candidate
          exact sound holds yields ((Interval.mem_point _ _).mpr rfl)
        next => exact ⟨state, rfl, holds⟩
    next => exact ⟨state, rfl, holds⟩

/-! ## Sums and products -/

private theorem fits_of_running_add {start removed : Int} {values : List Int}
    (small : Small removed) (running : Running Small (· + ·) (start + removed) values) :
    Running Wide.Fits (· + ·) start values := by
  induction values generalizing start with
  | nil => trivial
  | cons head rest induction =>
      have shifted : start + removed + head = start + head + removed := by omega
      simp only [Running, shifted] at running
      obtain ⟨next, continued⟩ := running
      refine ⟨?_, induction continued⟩
      simp only [Small, Wide.Fits, Wide.least, Wide.greatest] at *
      omega

private theorem sum_eq (values : List Int) (start : Int) :
    values.foldl (· + ·) start = start + values.foldl (· + ·) 0 := by
  induction values generalizing start with
  | nil => simp
  | cons head rest induction =>
      rw [List.foldl_cons, List.foldl_cons, induction, induction (0 + head)]
      omega

private theorem sum_others {before after : List Int} {operand : Int} (small : Small operand)
    (running : Running Small (· + ·) 0 (before ++ operand :: after)) :
    Running Wide.Fits (· + ·) 0 (before ++ after) ∧
      (before ++ operand :: after).foldl (· + ·) 0 =
        (before ++ after).foldl (· + ·) 0 + operand := by
  obtain ⟨first, -, rest⟩ := (running_append_iff _ _ _ _ _).mp running
  refine ⟨(running_append_iff _ _ _ _ _).mpr ⟨first.mono fun _ small => small.fits,
    fits_of_running_add small rest⟩, ?_⟩
  rw [List.foldl_append, List.foldl_append, List.foldl_cons, sum_eq after,
    sum_eq after (before.foldl (· + ·) 0)]
  omega

private theorem narrowSum_sound (sound : narrow.Sound circuit numbers)
    (holds : state.Holds circuit numbers) {target : Interval} {value : Nat → Int}
    {before after : List Nat}
    (each : ∀ operand ∈ before ++ after, circuit.Yields numbers operand (value operand))
    (running : Running Small (· + ·) 0 ((before ++ after).map value))
    (member : ((before ++ after).map value).foldl (· + ·) 0 ∈ target) :
    ∃ narrowed, narrowSum narrow target before after state = .ok narrowed ∧
      narrowed.Holds circuit numbers := by
  induction after generalizing before state with
  | nil => exact ⟨state, rfl, holds⟩
  | cons operand after induction =>
      have yields := each operand (List.mem_append_right _ List.mem_cons_self)
      rw [List.map_append, List.map_cons] at running member
      obtain ⟨othersRunning, total⟩ := sum_others yields.small running
      have inTarget := member
      rw [total, ← List.map_append] at inTarget
      rw [← List.map_append] at othersRunning
      have others : ((before ++ after).map value).foldl (· + ·) 0 ∈
          state.bounds.sum (before ++ after) := by
        refine Circuit.foldl_mem_sum (fun other inOthers => ?_) othersRunning
        refine holds.bounds other _ (each other ?_)
        simp only [List.mem_append, List.mem_cons] at inOthers ⊢
        exact inOthers.imp_right .inr
      rw [Interval.mem_iff] at others inTarget
      have fits := yields.small.fits
      have operandTarget : value operand ∈
          Interval.mk (Wide.sub target.lo (state.bounds.sum (before ++ after)).hi)
            (Wide.sub target.hi (state.bounds.sum (before ++ after)).lo) :=
        ⟨Wide.saturate_le fits (by omega), Wide.le_saturate fits (by omega)⟩
      obtain ⟨between, narrowed, holds'⟩ := sound holds yields operandTarget
      have possible := Int.not_lt.mpr (Int.le_trans operandTarget.1 operandTarget.2)
      simp only [narrowSum, possible, if_false, narrowed, Outcome.ok_bind]
      apply induction holds'
      · simpa using each
      · simpa using running
      · simpa using member

private theorem fits_of_running_mul {start removed : Int} {values : List Int}
    (nonzero : removed ≠ 0) (running : Running Small (· * ·) (start * removed) values) :
    Running Wide.Fits (· * ·) start values := by
  induction values generalizing start with
  | nil => trivial
  | cons head rest induction =>
      have shifted : start * removed * head = start * head * removed := by
        rw [Int.mul_assoc, Int.mul_comm removed, ← Int.mul_assoc]
      simp only [Running, shifted] at running
      obtain ⟨next, continued⟩ := running
      refine ⟨?_, induction continued⟩
      have grows : (start * head).natAbs ≤ (start * head * removed).natAbs := by
        rw [Int.natAbs_mul _ removed]
        exact Nat.le_mul_of_pos_right _ (Int.natAbs_pos.mpr nonzero)
      simp only [Small, Wide.Fits, Wide.least, Wide.greatest] at *
      omega

private theorem product_eq (values : List Int) (start : Int) :
    values.foldl (· * ·) start = start * values.foldl (· * ·) 1 := by
  induction values generalizing start with
  | nil => simp
  | cons head rest induction =>
      rw [List.foldl_cons, List.foldl_cons, induction, induction (1 * head), Int.one_mul,
        Int.mul_assoc]

private theorem product_others {before after : List Int} {operand : Int}
    (running : Running Small (· * ·) 1 (before ++ operand :: after)) :
    (operand ≠ 0 → Running Wide.Fits (· * ·) 1 (before ++ after)) ∧
      (before ++ operand :: after).foldl (· * ·) 1 =
        operand * (before ++ after).foldl (· * ·) 1 := by
  obtain ⟨first, -, rest⟩ := (running_append_iff _ _ _ _ _).mp running
  refine ⟨fun nonzero => (running_append_iff _ _ _ _ _).mpr
    ⟨first.mono fun _ small => small.fits, fits_of_running_mul nonzero rest⟩, ?_⟩
  rw [List.foldl_append, List.foldl_append, List.foldl_cons, product_eq after,
    product_eq after (before.foldl (· * ·) 1), Int.mul_comm _ operand, Int.mul_assoc]

private theorem isPoint_product {bounds : Bounds} {gates : List Nat}
    (points : ∀ gate ∈ gates, (bounds.interval gate).isPoint = true) :
    (bounds.product gates).isPoint = true := by
  have fold (start : Interval) (point : start.isPoint = true) :
      (gates.foldl (fun total gate => total.mul (bounds.interval gate)) start).isPoint = true := by
    induction gates generalizing start with
    | nil => exact point
    | cons head rest induction =>
        rw [List.forall_mem_cons] at points
        refine induction points.2 _ ?_
        simp only [Interval.isPoint, decide_eq_true_eq] at point points ⊢
        simp [Interval.mul, point, points.1]
  exact fold _ (by decide)

private theorem narrowProduct_sound (sound : narrow.Sound circuit numbers)
    (holds : state.Holds circuit numbers) {target : Interval} {value : Nat → Int}
    {operands : List Nat}
    (each : ∀ operand ∈ operands, circuit.Yields numbers operand (value operand))
    (running : Running Small (· * ·) 1 (operands.map value))
    (member : (operands.map value).foldl (· * ·) 1 ∈ target) :
    ∃ narrowed, narrowProduct narrow target operands state = .ok narrowed ∧
      narrowed.Holds circuit numbers := by
  unfold narrowProduct
  split
  next operand single =>
    obtain ⟨before, after, rfl, beforePoints, unfixed, afterEmpty⟩ :=
      List.filter_eq_cons_iff.mp single
    have points : ∀ other ∈ before ++ after, (state.interval other).isPoint = true := by
      intro other inOthers
      rcases List.mem_append.mp inOthers with inBefore | inAfter
      · simpa using beforePoints other inBefore
      · simpa using List.filter_eq_nil_iff.mp afterEmpty other inAfter
    -- The one operand that is not fixed occurs once, so the others are all that remains.
    have others : (before ++ operand :: after).filter (fun other => other ≠ operand) =
        before ++ after := by
      have different : ∀ other ∈ before ++ after, other ≠ operand := by
        rintro other inOthers rfl
        simp [points other inOthers] at unfixed
      rw [List.filter_append, List.filter_cons_of_neg (by simp), ← List.filter_append,
        List.filter_eq_self]
      simpa using different
    have yields := each operand (List.mem_append_right _ List.mem_cons_self)
    rw [List.map_append, List.map_cons] at running member
    obtain ⟨othersRunning, total⟩ := product_others running
    rw [total] at member
    rw [← List.map_append] at othersRunning member
    simp only [others]
    split
    · exact ⟨state, rfl, holds⟩
    next lo hi quotients =>
      have operandTarget : lo ≤ value operand ∧ value operand ≤ hi := by
        rw [Interval.mem_quotients_iff quotients]
        by_cases zero : value operand = 0
        · rw [zero, Int.zero_mul] at member ⊢
          exact member
        · have factor : ((before ++ after).map value).foldl (· * ·) 1 ∈
              state.bounds.product (before ++ after) := by
            refine Circuit.foldl_mem_product (fun other inOthers => ?_) (othersRunning zero)
            refine holds.bounds other _ (each other ?_)
            simp only [List.mem_append, List.mem_cons] at inOthers ⊢
            exact inOthers.imp_right .inr
          rw [Interval.mem_of_isPoint (isPoint_product points) factor]
          exact member
      rw [if_neg (by omega)]
      exact sound holds yields operandTarget
  next => exact ⟨state, rfl, holds⟩

/-! ## Gates -/

private theorem narrowChoice_sound (sound : narrow.Sound circuit numbers)
    (holds : state.Holds circuit numbers) {target : Interval}
    {condition consequent alternative : Nat} {value : Int}
    (outcome : (circuit.Yields numbers condition 1 ∧ circuit.Yields numbers consequent value) ∨
      (circuit.Yields numbers condition 0 ∧ circuit.Yields numbers alternative value))
    (member : value ∈ target) :
    ∃ narrowed, narrowChoice narrow target condition consequent alternative state =
      .ok narrowed ∧ narrowed.Holds circuit numbers := by
  have possible {branch : Nat} (yields : circuit.Yields numbers branch value) :
      ((state.interval branch).intersect? target).isNone = false := by
    obtain ⟨both, found⟩ :=
      Interval.intersect_isSome (holds.bounds branch value yields) member
    simp [found]
  unfold narrowChoice
  split
  next isTrue =>
    rcases outcome with ⟨-, yields⟩ | ⟨fails, -⟩
    · exact sound holds yields member
    · exact absurd (Interval.eq_one_of_isTrue isTrue (holds.bounds _ _ fails)) (by decide)
  split
  next isFalse =>
    rcases outcome with ⟨taken, -⟩ | ⟨-, yields⟩
    · exact absurd (Interval.eq_zero_of_isFalse isFalse (holds.bounds _ _ taken)) (by decide)
    · exact sound holds yields member
  split
  next impossible =>
    rcases outcome with ⟨-, yields⟩ | ⟨fails, yields⟩
    · simp [possible yields] at impossible
    · obtain ⟨between, narrowed, holds'⟩ := sound holds fails ((Interval.mem_point 0 0).mpr rfl)
      simp only [Interval.false, narrowed, Outcome.ok_bind]
      exact sound holds' yields member
  split
  next impossible =>
    rcases outcome with ⟨taken, yields⟩ | ⟨-, yields⟩
    · obtain ⟨between, narrowed, holds'⟩ := sound holds taken ((Interval.mem_point 1 1).mpr rfl)
      simp only [Interval.true, narrowed, Outcome.ok_bind]
      exact sound holds' yields member
    · simp [possible yields] at impossible
  · exact ⟨state, rfl, holds⟩

private theorem restrict_sound (holds : state.Holds circuit numbers) {index : Nat}
    {input : Input} {target : Interval} (held : circuit.inputs[index]? = some input)
    (member : numbers input.symbol ∈ target) :
    ∃ narrowed, state.restrict index target = .ok narrowed ∧
      narrowed.Holds circuit numbers := by
  have inBox := holds.box index input held
  obtain ⟨part, intersected⟩ := Interval.intersect_isSome inBox member
  simp only [Narrowing.restrict, intersected]
  split
  · exact ⟨state, rfl, holds⟩
  · refine ⟨_, rfl, holds.bounds, fun other input' held' => ?_⟩
    refine mem_setIfInBounds (holds.box other input' held') ?_
    rintro rfl
    obtain rfl := Option.some.inj (held.symm.trans held')
    exact (Interval.mem_intersect intersected).mpr ⟨inBox, member⟩

/-- What a gate reads can be narrowed as far as the number of the gate allows. -/
theorem narrowOperands_sound (sound : narrow.Sound circuit numbers)
    (holds : state.Holds circuit numbers) {gate : Gate} {target : Interval} {value : Int}
    (gives : circuit.Gives numbers gate value) (small : Small value) (member : value ∈ target) :
    ∃ narrowed, gate.narrowOperands narrow target state = .ok narrowed ∧
      narrowed.Holds circuit numbers := by
  cases gate with
  | constant | div | mod => exact ⟨state, rfl, holds⟩
  | input index =>
      obtain ⟨input, held, rfl⟩ := gives
      exact restrict_sound holds held member
  | not operand =>
      obtain ⟨held, yields, rfl⟩ := gives
      refine sound holds yields ?_
      rw [Interval.mem_iff] at member ⊢
      cases held <;> simp only [Interval.not, Bool.toInt] at * <;> grind
  | and operands =>
      exact narrowJunction_sound sound holds (by decide) gives member
  | or operands =>
      exact narrowJunction_sound sound holds (by decide) gives member
  | compare comparison left right =>
      obtain ⟨first, second, leftYields, rightYields, rfl⟩ := gives
      simp only [narrowOperands]
      split
      next isTrue =>
        have met := Interval.eq_one_of_isTrue isTrue member
        exact narrowComparison_sound sound holds leftYields rightYields
          (eq_of_truth_eq (met.trans rfl))
      next =>
        split
        next isFalse =>
          have failed := Interval.eq_zero_of_isFalse isFalse member
          exact narrowOpposite_sound sound holds leftYields rightYields
            (eq_of_truth_eq (failed.trans rfl))
        next => exact ⟨state, rfl, holds⟩
  | sum operands =>
      obtain ⟨value, each, running, rfl⟩ := gives
      exact narrowSum_sound sound holds each running member
  | product operands =>
      obtain ⟨value, each, running, rfl⟩ := gives
      exact narrowProduct_sound sound holds each running member
  | neg operand =>
      obtain ⟨held, yields, rfl⟩ := gives
      have negated := Interval.neg_mem_neg member small.neg.fits
      rw [Int.neg_neg] at negated
      exact sound holds yields negated
  | choose condition consequent alternative =>
      exact narrowChoice_sound sound holds gives member

end Gate

namespace Circuit

variable {circuit : Circuit} {numbers : Symbol → Int}

theorem narrow_sound (circuit : Circuit) (numbers : Symbol → Int) :
    Narrow.Sound circuit.narrow circuit numbers := by
  intro gate
  induction gate using Nat.strongRecOn with
  | ind gate induction =>
      intro target state value holds yields member
      have inBounds := holds.bounds gate value yields
      obtain ⟨part, intersected⟩ := Interval.intersect_isSome inBounds member
      have inPart : value ∈ part := (Interval.mem_intersect intersected).mpr ⟨inBounds, member⟩
      obtain ⟨kind, found⟩ : ∃ kind, circuit.gates[gate]? = some kind := by
        cases yields <;> exact ⟨_, by assumption⟩
      rw [narrow]
      simp only [intersected, Array.getD_eq_getD_getElem?, found, Option.getD_some]
      refine Gate.narrowOperands_sound ?_ ?_ (yields.gives found) yields.small inPart
      · intro operand target state value holds yields member
        dsimp only
        split
        next earlier => exact induction operand earlier holds yields member
        next => exact ⟨state, rfl, holds⟩
      · refine ⟨fun other value' yields' => ?_, holds.box⟩
        refine mem_setIfInBounds (holds.bounds other value' yields') ?_
        rintro rfl
        exact yields.unique yields' ▸ inPart

end Circuit

namespace Problem

variable {problem : Problem} {numbers : Symbol → Int}

/-- Every root is true. -/
def Solved (problem : Problem) (numbers : Symbol → Int) : Prop :=
  ∀ root ∈ problem.roots, problem.circuit.Yields numbers root.gate 1

theorem narrowRoots_sound (solved : problem.Solved numbers) {state : Narrowing}
    (holds : state.Holds problem.circuit numbers) :
    ∃ narrowed, problem.narrowRoots state = .ok narrowed ∧
      narrowed.Holds problem.circuit numbers := by
  unfold narrowRoots
  unfold Solved at solved
  generalize problem.roots = roots at solved
  induction roots generalizing state with
  | nil => exact ⟨state, rfl, holds⟩
  | cons head rest induction =>
      rw [List.forall_mem_cons] at solved
      obtain ⟨between, narrowed, holds'⟩ := Circuit.narrow_sound problem.circuit numbers holds
        solved.1 ((Interval.mem_point 1 1).mpr rfl)
      obtain ⟨last, narrowedRest, holds''⟩ := induction holds' solved.2
      refine ⟨last, ?_, holds''⟩
      rw [List.foldlM_cons, Interval.true, narrowed]
      exact narrowedRest

theorem not_refuted {bounds : Bounds} (solved : problem.Solved numbers)
    (encloses : ∀ gate value, problem.circuit.Yields numbers gate value →
      value ∈ bounds.interval gate) : problem.refuted bounds = false := by
  rw [refuted, List.any_eq_false]
  intro root member isFalse
  have inBounds := encloses root.gate 1 (solved root member)
  exact absurd (Interval.eq_zero_of_isFalse isFalse inBounds) (by decide)

end Problem

/-! ## Boxes only shrink -/

/-- The property stays when one interval of a box is replaced by a non-empty part
of it. -/
def Box.Inherited (keeps : Box → Prop) : Prop :=
  ∀ ⦃box : Box⦄ ⦃index : Nat⦄ ⦃part : Interval⦄, keeps box → part.lo ≤ part.hi →
    (∀ held, box[index]? = some held → held.lo ≤ part.lo ∧ part.hi ≤ held.hi) →
    keeps (box.setIfInBounds index part)

namespace Box.Refines

theorem trans {inner middle outer : Box} (left : inner.Refines middle)
    (right : middle.Refines outer) : inner.Refines outer where
  size := left.size.trans right.size
  ordered := left.ordered
  within index held interval found bound := by
    have less : index < middle.size := by
      rw [← left.size]
      exact (Array.getElem?_eq_some_iff.mp bound).1
    have between : middle[index]? = some middle[index] := by simp [less]
    have lower := left.within index _ _ between bound
    have upper := right.within index _ _ found between
    omega

theorem refl {box : Box}
    (ordered : ∀ (index : Nat) (interval : Interval), box[index]? = some interval →
      interval.lo ≤ interval.hi) : box.Refines box where
  size := rfl
  ordered := ordered
  within index held interval found bound := by
    obtain rfl := Option.some.inj (found.symm.trans bound)
    omega

theorem inherited (outer : Box) : Box.Inherited (Box.Refines · outer) := by
  intro box index part refines ordered within
  have replaced (other : Nat) (interval : Interval)
      (bound : (box.setIfInBounds index part)[other]? = some interval) :
      box[other]? = some interval ∨
        ∃ held, box[other]? = some held ∧ index = other ∧ interval = part := by
    rw [Array.getElem?_setIfInBounds] at bound
    split at bound
    next same =>
      subst same
      split at bound
      next less => exact .inr ⟨box[index], by simp [less], rfl, (Option.some.inj bound).symm⟩
      next => simp at bound
    next => exact .inl bound
  refine ⟨by simpa using refines.size, fun other interval bound => ?_,
    fun other held interval found bound => ?_⟩
  · rcases replaced other interval bound with kept | ⟨held, -, -, rfl⟩
    · exact refines.ordered other interval kept
    · exact ordered
  · rcases replaced other interval bound with kept | ⟨between, before, rfl, rfl⟩
    · exact refines.within other held interval found kept
    · have lower := within between before
      have upper := refines.within index held between found before
      omega

theorem mem {box outer : Box} (refines : box.Refines outer) {index : Nat} {value : Int}
    (member : value ∈ box.getD index .full) : value ∈ outer.getD index .full := by
  rw [Array.getD_eq_getD_getElem?] at member ⊢
  cases held : outer[index]? with
  | none =>
      have beyond : box[index]? = none := by
        rw [Array.getElem?_eq_none_iff] at held ⊢
        rw [refines.size]
        exact held
      simpa [beyond] using member
  | some interval =>
      have less : index < box.size := by
        rw [refines.size]
        exact (Array.getElem?_eq_some_iff.mp held).1
      have found : box[index]? = some box[index] := by simp [less]
      obtain ⟨lower, upper⟩ := refines.within index interval _ held found
      rw [found] at member
      simp only [Option.getD_some, Interval.mem_iff] at member ⊢
      omega

end Box.Refines

def Narrowed.Leaves (keeps : Narrowing → Prop) : Narrowed → Prop
  | .ok state | .error state => keeps state

namespace Narrowed.Leaves

variable {keeps : Narrowing → Prop}

theorem bind {outcome : Narrowed} {next : Narrowing → Narrowed} (first : Leaves keeps outcome)
    (second : ∀ state, keeps state → Leaves keeps (next state)) :
    Leaves keeps (outcome >>= next) := by
  cases outcome with
  | error state => exact first
  | ok state => exact second state first

theorem foldlM {step : Narrowing → α → Narrowed}
    (each : ∀ state item, keeps state → Leaves keeps (step state item)) (items : List α)
    {state : Narrowing} (before : keeps state) : Leaves keeps (items.foldlM step state) := by
  induction items generalizing state with
  | nil => exact before
  | cons head rest induction =>
      rw [List.foldlM_cons]
      exact (each state head before).bind fun _ between => induction between

end Narrowed.Leaves

def Narrow.Keeps (narrow : Narrow) (keeps : Narrowing → Prop) : Prop :=
  ∀ (gate : Nat) (target : Interval) ⦃state : Narrowing⦄,
    keeps state → Narrowed.Leaves keeps (narrow gate target state)

namespace Gate

open Narrowed (Leaves)

variable {narrow : Narrow} {keeps : Narrowing → Prop} {state : Narrowing}

private theorem exclude_keeps (kept : narrow.Keeps keeps) (before : keeps state) (gate : Nat)
    (value : Int) : Leaves keeps (exclude narrow gate value state) := by
  simp only [exclude]
  split
  · exact before
  · split
    · exact kept _ _ before
    · split
      · exact kept _ _ before
      · exact before

private theorem narrowComparison_keeps (kept : narrow.Keeps keeps) (before : keeps state)
    (comparison : Comparison) (left right : Nat) :
    Leaves keeps (narrowComparison narrow comparison left right state) := by
  cases comparison with
  | eq | lt | leq => exact (kept _ _ before).bind fun _ between => kept _ _ between
  | neq =>
      have second (state : Narrowing) (before : keeps state) :
          Leaves keeps (if (state.interval left).isPoint then
            exclude narrow right (state.interval left).lo state else .ok state) := by
        split
        · exact exclude_keeps kept before right _
        · exact before
      simp only [narrowComparison]
      split
      · exact (exclude_keeps kept before left _).bind second
      · exact second state before

private theorem narrowOpposite_keeps (kept : narrow.Keeps keeps) (before : keeps state)
    (comparison : Comparison) (left right : Nat) :
    Leaves keeps (narrowOpposite narrow comparison left right state) := by
  cases comparison <;> simp only [narrowOpposite] <;>
    exact narrowComparison_keeps kept before _ _ _

private theorem narrowJunction_keeps (kept : narrow.Keeps keeps) (before : keeps state)
    (neutral absorbing : Interval) (operands : List Nat) (target : Interval) :
    Leaves keeps (narrowJunction narrow neutral absorbing operands target state) := by
  unfold narrowJunction
  split
  · exact .foldlM (fun _ gate between => kept gate neutral between) operands before
  · split
    · split
      · exact before
      · split
        · exact before
        · exact kept _ _ before
        · exact before
    · exact before

private theorem narrowSum_keeps (kept : narrow.Keeps keeps) (target : Interval)
    (already rest : List Nat) (before : keeps state) :
    Leaves keeps (narrowSum narrow target already rest state) := by
  induction rest generalizing already state with
  | nil => exact before
  | cons operand rest induction =>
      simp only [narrowSum]
      split
      · exact before
      · exact (kept _ _ before).bind fun _ between => induction _ between

private theorem narrowProduct_keeps (kept : narrow.Keeps keeps) (before : keeps state)
    (target : Interval) (operands : List Nat) :
    Leaves keeps (narrowProduct narrow target operands state) := by
  unfold narrowProduct
  split
  · dsimp only
    split
    · exact before
    · split
      · exact before
      · exact kept _ _ before
  · exact before

private theorem narrowChoice_keeps (kept : narrow.Keeps keeps) (before : keeps state)
    (target : Interval) (condition consequent alternative : Nat) :
    Leaves keeps (narrowChoice narrow target condition consequent alternative state) := by
  unfold narrowChoice
  split
  · exact kept _ _ before
  split
  · exact kept _ _ before
  split
  · exact (kept _ _ before).bind fun _ between => kept _ _ between
  split
  · exact (kept _ _ before).bind fun _ between => kept _ _ between
  · exact before

theorem narrowOperands_keeps (keeps : Narrowing → Prop) (kept : narrow.Keeps keeps)
    (restricted : ∀ (index : Nat) (target : Interval) ⦃state : Narrowing⦄,
      keeps state → Leaves keeps (state.restrict index target))
    (gate : Gate) (target : Interval) (before : keeps state) :
    Leaves keeps (gate.narrowOperands narrow target state) := by
  cases gate with
  | constant | div | mod => exact before
  | input => exact restricted _ _ before
  | not | neg => exact kept _ _ before
  | and | or => exact narrowJunction_keeps kept before _ _ _ _
  | compare =>
      simp only [narrowOperands]
      split
      · exact narrowComparison_keeps kept before _ _ _
      · split
        · exact narrowOpposite_keeps kept before _ _ _
        · exact before
  | sum => exact narrowSum_keeps kept _ _ _ before
  | product => exact narrowProduct_keeps kept before _ _
  | choose => exact narrowChoice_keeps kept before _ _ _ _

end Gate

private theorem Narrowing.restrict_keeps {keeps : Box → Prop} (inherited : Box.Inherited keeps)
    (index : Nat) (target : Interval) {state : Narrowing} (before : keeps state.box) :
    Narrowed.Leaves (fun state => keeps state.box) (state.restrict index target) := by
  simp only [restrict]
  split
  · exact before
  next part intersected =>
    split
    · exact before
    · refine inherited before (Interval.clamp_ordered intersected) fun held bound => ?_
      have within := Interval.clamp_within intersected
      simpa [Array.getD_eq_getD_getElem?, bound] using within

namespace Circuit

/-- Whatever is demanded, the intervals of the box are only replaced by non-empty
parts of them. -/
theorem narrow_keeps {keeps : Box → Prop} (inherited : Box.Inherited keeps) (circuit : Circuit) :
    Narrow.Keeps circuit.narrow fun state => keeps state.box := by
  intro gate
  induction gate using Nat.strongRecOn with
  | ind gate induction =>
      intro target state before
      rw [narrow]
      split
      · exact before
      · refine Gate.narrowOperands_keeps (fun state => keeps state.box) ?_
          (fun index target _ => Narrowing.restrict_keeps inherited index target) _ _ before
        intro operand target state before
        dsimp only
        split
        next earlier => exact induction operand earlier target before
        next => exact before

end Circuit

namespace Problem

theorem narrowRoots_keeps {keeps : Box → Prop} (inherited : Box.Inherited keeps)
    (problem : Problem) {state : Narrowing} (before : keeps state.box) :
    Narrowed.Leaves (fun state => keeps state.box) (problem.narrowRoots state) :=
  .foldlM (fun _ root between => problem.circuit.narrow_keeps inherited root.gate .true between) _
    before

/-! ## Propagation -/

/-- The box that propagation leaves behind, whether it has found a conflict or not. -/
def boxLeft : Except Box Enclosed → Box
  | .ok enclosed => enclosed.box
  | .error box => box

variable {problem : Problem} {numbers : Symbol → Int}

private theorem narrowRounds_keeps {keeps : Box → Prop} (inherited : Box.Inherited keeps)
    (rounds : Nat) {box : Box} (before : keeps box) :
    keeps (boxLeft (problem.narrowRounds rounds box)) := by
  induction rounds generalizing box with
  | zero =>
      simp only [narrowRounds]
      split <;> exact before
  | succ rounds induction =>
      have left : Narrowed.Leaves (fun state => keeps state.box)
          (problem.narrowRoots ⟨problem.circuit.enclose box, box, false⟩) :=
        narrowRoots_keeps inherited problem before
      simp only [narrowRounds]
      split
      · exact before
      · split
        next state conflict =>
          rw [conflict] at left
          exact left
        next state narrowed =>
          rw [narrowed] at left
          split
          · exact induction left
          · exact before

private theorem narrowRounds_spec {rounds : Nat} {box : Box} {enclosed : Enclosed}
    (result : problem.narrowRounds rounds box = .ok enclosed) :
    enclosed.bounds = problem.circuit.enclose enclosed.box ∧
      problem.refuted enclosed.bounds = false := by
  induction rounds generalizing box with
  | zero =>
      simp only [narrowRounds] at result
      split at result
      · simp at result
      next possible =>
        obtain rfl := Except.ok.inj result
        exact ⟨rfl, by simpa using possible⟩
  | succ rounds induction =>
      simp only [narrowRounds] at result
      split at result
      · simp at result
      next possible =>
        split at result
        · simp at result
        · split at result
          · exact induction result
          · obtain rfl := Except.ok.inj result
            exact ⟨rfl, by simpa using possible⟩

theorem keeps_boxLeft_propagate {keeps : Box → Prop} (inherited : Box.Inherited keeps)
    (problem : Problem) {box : Box} (before : keeps box) :
    keeps (boxLeft (problem.propagate box)) :=
  narrowRounds_keeps inherited maxRounds before

theorem propagate_keeps {keeps : Box → Prop} (inherited : Box.Inherited keeps) {box : Box}
    {enclosed : Enclosed} (before : keeps box) (result : problem.propagate box = .ok enclosed) :
    keeps enclosed.box ∧ enclosed.bounds = problem.circuit.enclose enclosed.box := by
  have kept := keeps_boxLeft_propagate inherited problem before
  rw [result] at kept
  exact ⟨kept, (narrowRounds_spec result).1⟩

theorem propagate_spec {box outer : Box} {enclosed : Enclosed} (refines : box.Refines outer)
    (result : problem.propagate box = .ok enclosed) :
    enclosed.box.Refines outer ∧ enclosed.bounds = problem.circuit.enclose enclosed.box :=
  propagate_keeps (Box.Refines.inherited outer) refines result

theorem not_refuted_of_propagate {box : Box} {enclosed : Enclosed}
    (result : problem.propagate box = .ok enclosed) :
    problem.refuted enclosed.bounds = false :=
  (narrowRounds_spec result).2

private theorem narrowRounds_sound (wellFormed : problem.circuit.WellFormed)
    (solved : problem.Solved numbers) {rounds : Nat} {box : Box}
    (isBox : problem.circuit.IsBox box) (inside : problem.circuit.Inside box numbers) :
    ∃ enclosed, problem.narrowRounds rounds box = .ok enclosed ∧
      problem.circuit.Inside enclosed.box numbers := by
  induction rounds generalizing box with
  | zero =>
      have encloses := fun gate value (yields : problem.circuit.Yields numbers gate value) =>
        yields.mem_enclose wellFormed isBox inside
      simp only [narrowRounds, not_refuted solved encloses]
      exact ⟨_, rfl, inside⟩
  | succ rounds induction =>
      have encloses := fun gate value (yields : problem.circuit.Yields numbers gate value) =>
        yields.mem_enclose wellFormed isBox inside
      let state : Narrowing := ⟨problem.circuit.enclose box, box, false⟩
      have holds : state.Holds problem.circuit numbers := ⟨encloses, inside⟩
      obtain ⟨narrowed, result, holds'⟩ := narrowRoots_sound solved holds
      simp only [narrowRounds, not_refuted solved encloses, Bool.false_eq_true, if_false]
      rw [show problem.narrowRoots ⟨problem.circuit.enclose box, box, false⟩ = .ok narrowed
        from result]
      dsimp only
      split
      · have refines : state.box.Refines problem.circuit.wholeBox := isBox
        have left := narrowRoots_keeps (Box.Refines.inherited _) problem refines
        rw [result] at left
        exact induction left holds'.box
      · exact ⟨_, rfl, inside⟩

/-- Propagation keeps every solution in the box. -/
theorem propagate_sound (wellFormed : problem.circuit.WellFormed)
    (solved : problem.Solved numbers) {box : Box} (isBox : problem.circuit.IsBox box)
    (inside : problem.circuit.Inside box numbers) :
    ∃ enclosed, problem.propagate box = .ok enclosed ∧
      problem.circuit.Inside enclosed.box numbers :=
  narrowRounds_sound wellFormed solved isBox inside

theorem inside_of_propagate (wellFormed : problem.circuit.WellFormed)
    (solved : problem.Solved numbers) {box : Box} (isBox : problem.circuit.IsBox box)
    (inside : problem.circuit.Inside box numbers) {enclosed : Enclosed}
    (result : problem.propagate box = .ok enclosed) :
    problem.circuit.Inside enclosed.box numbers := by
  obtain ⟨enclosed', found, inside'⟩ := propagate_sound wellFormed solved isBox inside
  obtain rfl := Except.ok.inj (result.symm.trans found)
  exact inside'

end Problem

end SymbolicSafety
