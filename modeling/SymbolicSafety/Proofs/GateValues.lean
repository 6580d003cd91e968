import SymbolicSafety.Circuit.Problem
import SymbolicSafety.Proofs.IntervalArithmetic

namespace SymbolicSafety

/-! The numbers that the gates of a circuit yield when its inputs have given
numbers, and the enclosure of these numbers by the bounds of the gates. -/

/-! ## Running results -/

def Running (accepts : Int → Prop) (combine : Int → Int → Int) (start : Int) : List Int → Prop
  | [] => True
  | value :: rest =>
      accepts (combine start value) ∧ Running accepts combine (combine start value) rest

theorem running_append_iff (accepts : Int → Prop) (combine : Int → Int → Int) (start : Int)
    (first second : List Int) :
    Running accepts combine start (first ++ second) ↔
      Running accepts combine start first ∧
        Running accepts combine (first.foldl combine start) second := by
  induction first generalizing start with
  | nil => simp [Running]
  | cons head rest induction => simp [Running, induction, and_assoc]

theorem Running.mono {accepts accepts' : Int → Prop} {combine : Int → Int → Int} {start : Int}
    {values : List Int} (running : Running accepts combine start values)
    (weaker : ∀ value, accepts value → accepts' value) :
    Running accepts' combine start values := by
  induction values generalizing start with
  | nil => trivial
  | cons head rest induction => exact ⟨weaker _ running.1, induction running.2⟩

/-- A number so small that a few of them can be added in any order within the
wide range. All words and their negations are. -/
def Small (value : Int) : Prop := -0x10000000000000000 ≤ value ∧ value ≤ 0x10000000000000000

theorem Small.fits {value : Int} (small : Small value) : Wide.Fits value := by
  simp only [Small, Wide.Fits, Wide.least, Wide.greatest] at *
  omega

theorem small_toInt (word : Int64) : Small word.toInt := by
  have lower := word.le_toInt
  have upper := word.toInt_lt
  simp only [Small]
  omega

theorem small_truth (holds : Bool) : Small holds.toInt := by
  cases holds <;> simp [Small]

theorem eq_of_truth_eq {left right : Bool} (equal : left.toInt = right.toInt) : left = right := by
  cases left <;> cases right <;> simp_all

theorem Small.neg {value : Int} (small : Small value) : Small (-value) := by
  simp only [Small] at *
  omega

/-! ## Gates -/

namespace Circuit

/-- The gate at a position yields a number. Like a formula, a gate may yield
one although some gate that it reads yields none. -/
inductive Yields (circuit : Circuit) (numbers : Symbol → Int) : Nat → Int → Prop where
  | constant {gate : Nat} {value : Int} :
      circuit.gates[gate]? = some (.constant value) → Small value →
      Yields circuit numbers gate value
  | input {gate index : Nat} {input : Input} :
      circuit.gates[gate]? = some (.input index) → circuit.inputs[index]? = some input →
      Small (numbers input.symbol) → Yields circuit numbers gate (numbers input.symbol)
  | not {gate operand : Nat} {holds : Bool} :
      circuit.gates[gate]? = some (.not operand) →
      Yields circuit numbers operand holds.toInt → Yields circuit numbers gate (!holds).toInt
  | all {gate : Nat} {operands : List Nat} :
      circuit.gates[gate]? = some (.and operands) →
      (∀ operand ∈ operands, Yields circuit numbers operand 1) → Yields circuit numbers gate 1
  | notAll {gate operand : Nat} {operands : List Nat} :
      circuit.gates[gate]? = some (.and operands) → operand ∈ operands →
      Yields circuit numbers operand 0 → Yields circuit numbers gate 0
  | any {gate operand : Nat} {operands : List Nat} :
      circuit.gates[gate]? = some (.or operands) → operand ∈ operands →
      Yields circuit numbers operand 1 → Yields circuit numbers gate 1
  | none {gate : Nat} {operands : List Nat} :
      circuit.gates[gate]? = some (.or operands) →
      (∀ operand ∈ operands, Yields circuit numbers operand 0) → Yields circuit numbers gate 0
  | compare {gate left right : Nat} {comparison : Comparison} {first second : Int} :
      circuit.gates[gate]? = some (.compare comparison left right) →
      Yields circuit numbers left first → Yields circuit numbers right second →
      Yields circuit numbers gate (comparison.holds first second).toInt
  | sum {gate : Nat} {operands : List Nat} {value : Nat → Int} :
      circuit.gates[gate]? = some (.sum operands) →
      (∀ operand ∈ operands, Yields circuit numbers operand (value operand)) →
      Running Small (· + ·) 0 (operands.map value) →
      Yields circuit numbers gate ((operands.map value).foldl (· + ·) 0)
  | product {gate : Nat} {operands : List Nat} {value : Nat → Int} :
      circuit.gates[gate]? = some (.product operands) →
      (∀ operand ∈ operands, Yields circuit numbers operand (value operand)) →
      Running Small (· * ·) 1 (operands.map value) →
      Yields circuit numbers gate ((operands.map value).foldl (· * ·) 1)
  | neg {gate operand : Nat} {value : Int} :
      circuit.gates[gate]? = some (.neg operand) → Yields circuit numbers operand value →
      Yields circuit numbers gate (-value)
  | div {gate left right : Nat} {first second : Int} :
      circuit.gates[gate]? = some (.div left right) → Yields circuit numbers left first →
      Yields circuit numbers right second → Small (first / second) →
      Yields circuit numbers gate (first / second)
  | mod {gate left right : Nat} {first second : Int} :
      circuit.gates[gate]? = some (.mod left right) → Yields circuit numbers left first →
      Yields circuit numbers right second → Small (first % second) →
      Yields circuit numbers gate (first % second)
  | consequent {gate condition consequent alternative : Nat} {value : Int} :
      circuit.gates[gate]? = some (.choose condition consequent alternative) →
      Yields circuit numbers condition 1 → Yields circuit numbers consequent value →
      Yields circuit numbers gate value
  | alternative {gate condition consequent alternative : Nat} {value : Int} :
      circuit.gates[gate]? = some (.choose condition consequent alternative) →
      Yields circuit numbers condition 0 → Yields circuit numbers alternative value →
      Yields circuit numbers gate value

variable {circuit : Circuit} {numbers : Symbol → Int}

private theorem small_of_running {combine : Int → Int → Int} {start : Int} {values : List Int}
    (small : Small start) (running : Running Small combine start values) :
    Small (values.foldl combine start) := by
  induction values generalizing start with
  | nil => exact small
  | cons head rest induction => exact induction running.1 running.2

theorem Yields.small {gate : Nat} {value : Int} (yields : circuit.Yields numbers gate value) :
    Small value := by
  induction yields with
  | constant _ small => exact small
  | input _ _ small => exact small
  | not | compare => exact small_truth _
  | all | any => exact small_truth true
  | notAll | none => exact small_truth false
  | sum _ _ running => exact small_of_running (small_truth false) running
  | product _ _ running => exact small_of_running (small_truth true) running
  | neg _ _ operandSmall => exact operandSmall.neg
  | div _ _ _ small => exact small
  | mod _ _ _ small => exact small
  | consequent _ _ _ _ chosenSmall => exact chosenSmall
  | alternative _ _ _ _ chosenSmall => exact chosenSmall

def Gives (circuit : Circuit) (numbers : Symbol → Int) : Gate → Int → Prop
  | .constant constant, value => value = constant
  | .input index, value => ∃ input, circuit.inputs[index]? = some input ∧
      value = numbers input.symbol
  | .not operand, value => ∃ holds : Bool,
      circuit.Yields numbers operand holds.toInt ∧ value = (!holds).toInt
  | .and operands, value =>
      (value = 1 ∧ ∀ operand ∈ operands, circuit.Yields numbers operand 1) ∨
        (value = 0 ∧ ∃ operand ∈ operands, circuit.Yields numbers operand 0)
  | .or operands, value =>
      (value = 0 ∧ ∀ operand ∈ operands, circuit.Yields numbers operand 0) ∨
        (value = 1 ∧ ∃ operand ∈ operands, circuit.Yields numbers operand 1)
  | .compare comparison left right, value => ∃ first second,
      circuit.Yields numbers left first ∧ circuit.Yields numbers right second ∧
        value = (comparison.holds first second).toInt
  | .sum operands, result => ∃ value : Nat → Int,
      (∀ operand ∈ operands, circuit.Yields numbers operand (value operand)) ∧
        Running Small (· + ·) 0 (operands.map value) ∧
        result = (operands.map value).foldl (· + ·) 0
  | .product operands, result => ∃ value : Nat → Int,
      (∀ operand ∈ operands, circuit.Yields numbers operand (value operand)) ∧
        Running Small (· * ·) 1 (operands.map value) ∧
        result = (operands.map value).foldl (· * ·) 1
  | .neg operand, value => ∃ held, circuit.Yields numbers operand held ∧ value = -held
  | .div left right, value => ∃ first second,
      circuit.Yields numbers left first ∧ circuit.Yields numbers right second ∧
        value = first / second
  | .mod left right, value => ∃ first second,
      circuit.Yields numbers left first ∧ circuit.Yields numbers right second ∧
        value = first % second
  | .choose condition consequent alternative, value =>
      (circuit.Yields numbers condition 1 ∧ circuit.Yields numbers consequent value) ∨
        (circuit.Yields numbers condition 0 ∧ circuit.Yields numbers alternative value)

theorem Yields.gives {position : Nat} {gate : Gate} {value : Int}
    (yields : circuit.Yields numbers position value)
    (placed : circuit.gates[position]? = some gate) : circuit.Gives numbers gate value := by
  cases yields with
  | constant found small =>
      obtain rfl := Option.some.inj (found.symm.trans placed)
      rfl
  | input found held small =>
      obtain rfl := Option.some.inj (found.symm.trans placed)
      exact ⟨_, held, rfl⟩
  | not found operand =>
      obtain rfl := Option.some.inj (found.symm.trans placed)
      exact ⟨_, operand, rfl⟩
  | all found each =>
      obtain rfl := Option.some.inj (found.symm.trans placed)
      exact .inl ⟨rfl, each⟩
  | notAll found member operand =>
      obtain rfl := Option.some.inj (found.symm.trans placed)
      exact .inr ⟨rfl, _, member, operand⟩
  | any found member operand =>
      obtain rfl := Option.some.inj (found.symm.trans placed)
      exact .inr ⟨rfl, _, member, operand⟩
  | none found each =>
      obtain rfl := Option.some.inj (found.symm.trans placed)
      exact .inl ⟨rfl, each⟩
  | compare found left right =>
      obtain rfl := Option.some.inj (found.symm.trans placed)
      exact ⟨_, _, left, right, rfl⟩
  | sum found each running =>
      obtain rfl := Option.some.inj (found.symm.trans placed)
      exact ⟨_, each, running, rfl⟩
  | product found each running =>
      obtain rfl := Option.some.inj (found.symm.trans placed)
      exact ⟨_, each, running, rfl⟩
  | neg found operand =>
      obtain rfl := Option.some.inj (found.symm.trans placed)
      exact ⟨_, operand, rfl⟩
  | div found left right small =>
      obtain rfl := Option.some.inj (found.symm.trans placed)
      exact ⟨_, _, left, right, rfl⟩
  | mod found left right small =>
      obtain rfl := Option.some.inj (found.symm.trans placed)
      exact ⟨_, _, left, right, rfl⟩
  | consequent found condition chosen =>
      obtain rfl := Option.some.inj (found.symm.trans placed)
      exact .inl ⟨condition, chosen⟩
  | alternative found condition chosen =>
      obtain rfl := Option.some.inj (found.symm.trans placed)
      exact .inr ⟨condition, chosen⟩

theorem Yields.unique {gate : Nat} {value other : Int}
    (first : circuit.Yields numbers gate value) (second : circuit.Yields numbers gate other) :
    value = other := by
  have sameFold (combine : Int → Int → Int) (start : Int) {operands : List Nat}
      {left right : Nat → Int} (same : ∀ operand ∈ operands, left operand = right operand) :
      (operands.map left).foldl combine start = (operands.map right).foldl combine start := by
    rw [List.map_congr_left same]
  induction first generalizing other with
  | constant found => exact (second.gives found).symm
  | input found held =>
      obtain ⟨input, held', rfl⟩ := second.gives found
      rw [Option.some.inj (held.symm.trans held')]
  | not found _ operandCase =>
      obtain ⟨holds, operand, rfl⟩ := second.gives found
      rw [eq_of_truth_eq (operandCase operand)]
  | all found _ operandCases =>
      rcases second.gives found with ⟨rfl, -⟩ | ⟨rfl, operand, member, yields⟩
      · rfl
      · exact operandCases operand member yields
  | notAll found member _ operandCase =>
      rcases second.gives found with ⟨rfl, each⟩ | ⟨rfl, -⟩
      · exact operandCase (each _ member)
      · rfl
  | any found member _ operandCase =>
      rcases second.gives found with ⟨rfl, each⟩ | ⟨rfl, -⟩
      · exact operandCase (each _ member)
      · rfl
  | none found _ operandCases =>
      rcases second.gives found with ⟨rfl, -⟩ | ⟨rfl, operand, member, yields⟩
      · rfl
      · exact operandCases operand member yields
  | compare found _ _ leftCase rightCase =>
      obtain ⟨_, _, left, right, rfl⟩ := second.gives found
      rw [leftCase left, rightCase right]
  | sum found _ _ operandCases =>
      obtain ⟨_, each, -, rfl⟩ := second.gives found
      exact sameFold _ _ fun operand member => operandCases operand member (each operand member)
  | product found _ _ operandCases =>
      obtain ⟨_, each, -, rfl⟩ := second.gives found
      exact sameFold _ _ fun operand member => operandCases operand member (each operand member)
  | neg found _ operandCase =>
      obtain ⟨_, operand, rfl⟩ := second.gives found
      rw [operandCase operand]
  | div found _ _ _ leftCase rightCase =>
      obtain ⟨_, _, left, right, rfl⟩ := second.gives found
      rw [leftCase left, rightCase right]
  | mod found _ _ _ leftCase rightCase =>
      obtain ⟨_, _, left, right, rfl⟩ := second.gives found
      rw [leftCase left, rightCase right]
  | consequent found _ _ conditionCase chosenCase =>
      rcases second.gives found with ⟨-, chosen⟩ | ⟨condition, -⟩
      · exact chosenCase chosen
      · exact absurd (conditionCase condition) (by decide)
  | alternative found _ _ conditionCase chosenCase =>
      rcases second.gives found with ⟨condition, -⟩ | ⟨-, chosen⟩
      · exact absurd (conditionCase condition) (by decide)
      · exact chosenCase chosen

/-! ## Well-formed circuits -/

inductive Truth (circuit : Circuit) : Nat → Prop where
  | constant {gate : Nat} (holds : Bool) :
      circuit.gates[gate]? = some (.constant holds.toInt) → Truth circuit gate
  | input {gate index : Nat} {input : Input} :
      circuit.gates[gate]? = some (.input index) → circuit.inputs[index]? = some input →
      input.symbol.domain = .bool → Truth circuit gate
  | not {gate operand : Nat} :
      circuit.gates[gate]? = some (.not operand) → Truth circuit operand → Truth circuit gate
  | and {gate : Nat} {operands : List Nat} :
      circuit.gates[gate]? = some (.and operands) →
      (∀ operand ∈ operands, Truth circuit operand) → Truth circuit gate
  | or {gate : Nat} {operands : List Nat} :
      circuit.gates[gate]? = some (.or operands) →
      (∀ operand ∈ operands, Truth circuit operand) → Truth circuit gate
  | compare {gate left right : Nat} {comparison : Comparison} :
      circuit.gates[gate]? = some (.compare comparison left right) → Truth circuit gate
  | choose {gate condition consequent alternative : Nat} :
      circuit.gates[gate]? = some (.choose condition consequent alternative) →
      Truth circuit consequent → Truth circuit alternative → Truth circuit gate

/-- What a gate may read: earlier gates, truth values where it combines truth
values, and an input only if it is the gate of that input. -/
structure Admissible (circuit : Circuit) (position : Nat) (gate : Gate) : Prop where
  earlier : ∀ operand ∈ gate.reads, operand < position
  truths : ∀ operands, gate = .and operands ∨ gate = .or operands →
    ∀ operand ∈ operands, circuit.Truth operand
  sole : ∀ index, gate = .input index →
    ∃ input, circuit.inputs[index]? = some input ∧ input.gate = position

/-- Every gate is admissible, and each symbol is one input with one gate. -/
structure WellFormed (circuit : Circuit) : Prop where
  admissible : ∀ (position : Nat) (gate : Gate), circuit.gates[position]? = some gate →
    circuit.Admissible position gate
  placed : ∀ (index : Nat) (input : Input), circuit.inputs[index]? = some input →
    circuit.gates[input.gate]? = some (.input index)
  finite : ∀ (index : Nat) (input : Input), circuit.inputs[index]? = some input →
    input.symbol.domain.interval? = some input.domain
  distinct : ∀ (index other : Nat) (input input' : Input), circuit.inputs[index]? = some input →
    circuit.inputs[other]? = some input' → input.symbol = input'.symbol → index = other

end Circuit

/-- The box holds a non-empty part of every interval of the other one. -/
structure Box.Refines (box outer : Box) : Prop where
  size : box.size = outer.size
  ordered : ∀ (index : Nat) (interval : Interval), box[index]? = some interval →
    interval.lo ≤ interval.hi
  within : ∀ (index : Nat) (held interval : Interval), outer[index]? = some held →
    box[index]? = some interval → held.lo ≤ interval.lo ∧ interval.hi ≤ held.hi

namespace Circuit

/-- The box holds for every input a non-empty part of its domain. -/
def IsBox (circuit : Circuit) (box : Box) : Prop := box.Refines circuit.wholeBox

def Inside (circuit : Circuit) (box : Box) (numbers : Symbol → Int) : Prop :=
  ∀ (index : Nat) (input : Input), circuit.inputs[index]? = some input →
    numbers input.symbol ∈ box.getD index .full

/-! ## Bounds of gates -/

end Circuit

theorem Gate.enclose_congr (box : Box) {left right : Bounds} (gate : Gate)
    (same : ∀ operand ∈ gate.reads, left.interval operand = right.interval operand) :
    gate.enclose box left = gate.enclose box right := by
  have sameFold (combine : Interval → Interval → Interval) (start : Interval)
      {operands : List Nat}
      (same : ∀ operand ∈ operands, left.interval operand = right.interval operand) :
      operands.foldl (fun total operand => combine total (left.interval operand)) start =
        operands.foldl (fun total operand => combine total (right.interval operand)) start := by
    induction operands generalizing start with
    | nil => rfl
    | cons head rest induction =>
        rw [List.forall_mem_cons] at same
        rw [List.foldl_cons, List.foldl_cons, same.1, induction _ same.2]
  cases gate with
  | constant | input => rfl
  | and operands => exact sameFold Interval.and _ same
  | or operands => exact sameFold Interval.or _ same
  | sum operands => exact sameFold Interval.add _ same
  | product operands => exact sameFold Interval.mul _ same
  | not | neg | compare | div | mod | choose => simp_all [enclose, reads]

theorem Bounds.interval_push (bounds : Bounds) (interval : Interval) (gate : Nat) :
    Bounds.interval (bounds.push interval) gate =
      if gate = bounds.size then interval else bounds.interval gate := by
  simp only [Bounds.interval, Array.getD_eq_getD_getElem?, Array.getElem?_push]
  split <;> rfl

namespace Circuit

private def encloseFrom (box : Box) (bounds : Bounds) (gates : List Gate) : Bounds :=
  gates.foldl (fun bounds gate => bounds.push (gate.enclose box bounds)) bounds

private theorem encloseFrom_cons (box : Box) (bounds : Bounds) (gate : Gate)
    (rest : List Gate) : encloseFrom box bounds (gate :: rest) =
      encloseFrom box (bounds.push (gate.enclose box bounds)) rest := rfl

private theorem interval_encloseFrom_of_lt (box : Box) (gates : List Gate) (bounds : Bounds)
    {position : Nat} (earlier : position < bounds.size) :
    (encloseFrom box bounds gates).interval position = bounds.interval position := by
  induction gates generalizing bounds with
  | nil => rfl
  | cons head rest induction =>
      have later : position < (bounds.push (head.enclose box bounds)).size := by
        rw [Array.size_push]
        omega
      rw [encloseFrom_cons, induction _ later, Bounds.interval_push, if_neg (by omega)]

private theorem interval_encloseFrom (box : Box) {gates : List Gate} {gate : Gate}
    (bounds : Bounds) (position : Nat) (found : gates[position]? = some gate)
    (reads : ∀ operand ∈ gate.reads, operand < bounds.size + position) :
    (encloseFrom box bounds gates).interval (bounds.size + position) =
      gate.enclose box (encloseFrom box bounds gates) := by
  induction gates generalizing bounds position with
  | nil => simp at found
  | cons head rest induction =>
      rw [encloseFrom_cons]
      cases position with
      | zero =>
          obtain rfl : head = gate := by simpa using found
          have reached : bounds.size < (bounds.push (head.enclose box bounds)).size := by simp
          rw [Nat.add_zero, interval_encloseFrom_of_lt box rest _ reached, Bounds.interval_push,
            if_pos rfl]
          apply Gate.enclose_congr
          intro operand member
          have less := reads operand member
          rw [interval_encloseFrom_of_lt box rest _ (by simp; omega), Bounds.interval_push,
            if_neg (by omega)]
      | succ position =>
          have size : (bounds.push (head.enclose box bounds)).size + position =
              bounds.size + (position + 1) := by
            rw [Array.size_push]
            omega
          rw [← size] at reads ⊢
          exact induction _ position (by simpa using found) reads

variable {circuit : Circuit} {numbers : Symbol → Int} {box : Box}

theorem interval_enclose (wellFormed : circuit.WellFormed) (box : Box) {position : Nat}
    {gate : Gate} (found : circuit.gates[position]? = some gate) :
    (circuit.enclose box).interval position = gate.enclose box (circuit.enclose box) := by
  have passed : circuit.enclose box = encloseFrom box #[] circuit.gates.toList := by
    rw [enclose, ← Array.foldl_toList]
    rfl
  have placed : circuit.gates.toList[position]? = some gate := by simpa using found
  have reads := (wellFormed.admissible position gate found).earlier
  have step := interval_encloseFrom box #[] position placed (by simpa using reads)
  rw [passed]
  simpa using step

/-! ## Enclosure -/

end Circuit

def Interval.IsTruth (interval : Interval) : Prop :=
  0 ≤ interval.lo ∧ interval.lo ≤ interval.hi ∧ interval.hi ≤ 1

instance (interval : Interval) : Decidable interval.IsTruth :=
  inferInstanceAs (Decidable (_ ∧ _ ∧ _))

namespace Circuit

variable {circuit : Circuit} {numbers : Symbol → Int} {box : Box}

theorem Truth.interval (wellFormed : circuit.WellFormed) (isBox : circuit.IsBox box)
    {gate : Nat} (truth : circuit.Truth gate) :
    ((circuit.enclose box).interval gate).IsTruth := by
  induction truth with
  | constant holds found =>
      rw [interval_enclose wellFormed box found]
      cases holds <;> simp [Gate.enclose, Interval.IsTruth, Interval.point]
  | @input gate index input found held domain =>
      rw [interval_enclose wellFormed box found]
      have finite := wellFormed.finite index input held
      simp only [domain, Domain.interval?, Option.some.injEq] at finite
      have whole : circuit.wholeBox[index]? = some input.domain := by simp [wholeBox, held]
      have exists' : index < box.size := by
        rw [isBox.size]
        exact (Array.getElem?_eq_some_iff.mp whole).1
      have bound : box[index]? = some box[index] := by simp [exists']
      have ordered := isBox.ordered index _ bound
      have within := isBox.within index _ _ whole bound
      simp only [← finite, Interval.undecided] at within
      simp only [Gate.enclose, Array.getD_eq_getD_getElem?, bound, Option.getD_some,
        Interval.IsTruth]
      omega
  | not found _ operandCase =>
      rw [interval_enclose wellFormed box found]
      simp only [Gate.enclose, Interval.not, Interval.IsTruth] at operandCase ⊢
      omega
  | @and _ operands found _ operandCases =>
      rw [interval_enclose wellFormed box found]
      exact List.foldlRecOn operands _ (by decide) fun all allTruth operand member => by
        have truth := operandCases operand member
        simp only [Interval.IsTruth, Interval.and] at *
        omega
  | @or _ operands found _ operandCases =>
      rw [interval_enclose wellFormed box found]
      exact List.foldlRecOn operands _ (by decide) fun any anyTruth operand member => by
        have truth := operandCases operand member
        simp only [Interval.IsTruth, Interval.or] at *
        omega
  | compare found =>
      rw [interval_enclose wellFormed box found]
      simp only [Gate.enclose, Comparison.evaluate]
      split <;> decide
  | choose found _ _ consequentCase alternativeCase =>
      rw [interval_enclose wellFormed box found]
      simp only [Gate.enclose]
      split
      · exact consequentCase
      · split
        · exact alternativeCase
        · simp only [Interval.IsTruth, Interval.hull] at *
          omega

private theorem zero_mem_foldl_and {bounds : Bounds} {operands : List Nat} {start : Interval}
    (nonneg : 0 ≤ start.hi) (truths : ∀ operand ∈ operands, (bounds.interval operand).IsTruth)
    (zero : start.lo ≤ 0 ∨ ∃ operand ∈ operands, 0 ∈ bounds.interval operand) :
    0 ∈ operands.foldl (fun all operand => all.and (bounds.interval operand)) start := by
  induction operands generalizing start with
  | nil => exact ⟨by simpa using zero, nonneg⟩
  | cons head rest induction =>
      rw [List.forall_mem_cons] at truths
      simp only [List.mem_cons, or_and_right, exists_or, exists_eq_left] at zero
      rw [List.foldl_cons]
      refine induction ?_ truths.2 ?_
      · have truth := truths.1
        simp only [Interval.IsTruth, Interval.and] at *
        omega
      · rcases zero with low | zero | later
        · exact .inl (by simp only [Interval.and]; omega)
        · exact .inl (by have := zero.1; simp only [Interval.and]; omega)
        · exact .inr later

private theorem one_mem_foldl_and {bounds : Bounds} {operands : List Nat} {start : Interval}
    (startOne : 1 ∈ start) (ones : ∀ operand ∈ operands, 1 ∈ bounds.interval operand) :
    1 ∈ operands.foldl (fun all operand => all.and (bounds.interval operand)) start := by
  induction operands generalizing start with
  | nil => exact startOne
  | cons head rest induction =>
      rw [List.forall_mem_cons] at ones
      refine induction ?_ ones.2
      obtain ⟨one, -⟩ := ones
      rw [Interval.mem_iff] at *
      simp only [Interval.and]
      omega

private theorem zero_mem_foldl_or {bounds : Bounds} {operands : List Nat} {start : Interval}
    (startZero : 0 ∈ start) (zeros : ∀ operand ∈ operands, 0 ∈ bounds.interval operand) :
    0 ∈ operands.foldl (fun any operand => any.or (bounds.interval operand)) start := by
  induction operands generalizing start with
  | nil => exact startZero
  | cons head rest induction =>
      rw [List.forall_mem_cons] at zeros
      refine induction ?_ zeros.2
      obtain ⟨zero, -⟩ := zeros
      rw [Interval.mem_iff] at *
      simp only [Interval.or]
      omega

private theorem one_mem_foldl_or {bounds : Bounds} {operands : List Nat} {start : Interval}
    (atMostOne : start.lo ≤ 1)
    (truths : ∀ operand ∈ operands, (bounds.interval operand).IsTruth)
    (one : 1 ≤ start.hi ∨ ∃ operand ∈ operands, 1 ∈ bounds.interval operand) :
    1 ∈ operands.foldl (fun any operand => any.or (bounds.interval operand)) start := by
  induction operands generalizing start with
  | nil => exact ⟨atMostOne, by simpa using one⟩
  | cons head rest induction =>
      rw [List.forall_mem_cons] at truths
      simp only [List.mem_cons, or_and_right, exists_or, exists_eq_left] at one
      rw [List.foldl_cons]
      refine induction ?_ truths.2 ?_
      · have truth := truths.1
        simp only [Interval.IsTruth, Interval.or] at *
        omega
      · rcases one with high | one | later
        · exact .inl (by simp only [Interval.or]; omega)
        · exact .inl (by have := one.2; simp only [Interval.or]; omega)
        · exact .inr later

theorem foldl_mem_foldl {combine : Int → Int → Int} {bounds : Bounds}
    {combine' : Interval → Interval → Interval}
    (encloses : ∀ {left right : Interval} {first second : Int}, first ∈ left → second ∈ right →
      Wide.Fits (combine first second) → combine first second ∈ combine' left right)
    {operands : List Nat} {value : Nat → Int} {start : Int} {interval : Interval}
    (startMember : start ∈ interval)
    (members : ∀ operand ∈ operands, value operand ∈ bounds.interval operand)
    (running : Running Wide.Fits combine start (operands.map value)) :
    (operands.map value).foldl combine start ∈
      operands.foldl (fun total operand => combine' total (bounds.interval operand)) interval := by
  induction operands generalizing start interval with
  | nil => exact startMember
  | cons head rest induction =>
      rw [List.forall_mem_cons] at members
      exact induction (encloses startMember members.1 running.1) members.2 running.2

theorem foldl_mem_sum {bounds : Bounds} {operands : List Nat} {value : Nat → Int}
    (members : ∀ operand ∈ operands, value operand ∈ bounds.interval operand)
    (running : Running Wide.Fits (· + ·) 0 (operands.map value)) :
    (operands.map value).foldl (· + ·) 0 ∈ bounds.sum operands :=
  foldl_mem_foldl Interval.add_mem_add ((Interval.mem_point 0 0).mpr rfl) members running

theorem foldl_mem_product {bounds : Bounds} {operands : List Nat} {value : Nat → Int}
    (members : ∀ operand ∈ operands, value operand ∈ bounds.interval operand)
    (running : Running Wide.Fits (· * ·) 1 (operands.map value)) :
    (operands.map value).foldl (· * ·) 1 ∈ bounds.product operands :=
  foldl_mem_foldl Interval.mul_mem_mul ((Interval.mem_point 1 1).mpr rfl) members running

/-- The number that a gate yields lies in its bounds. -/
theorem Yields.mem_enclose (wellFormed : circuit.WellFormed) (isBox : circuit.IsBox box)
    (inside : circuit.Inside box numbers) {gate : Nat} {value : Int}
    (yields : circuit.Yields numbers gate value) :
    value ∈ (circuit.enclose box).interval gate := by
  have truths {gate : Nat} {operands : List Nat}
      (found : circuit.gates[gate]? = some (.and operands) ∨
        circuit.gates[gate]? = some (.or operands)) :
      ∀ operand ∈ operands, ((circuit.enclose box).interval operand).IsTruth := by
    intro operand member
    refine Truth.interval wellFormed isBox ?_
    rcases found with found | found
    · exact (wellFormed.admissible _ _ found).truths operands (.inl rfl) operand member
    · exact (wellFormed.admissible _ _ found).truths operands (.inr rfl) operand member
  induction yields with
  | constant found =>
      rw [interval_enclose wellFormed box found]
      simp [Gate.enclose]
  | @input gate index input found held =>
      rw [interval_enclose wellFormed box found]
      exact inside index input held
  | @not _ _ holds found _ operandCase =>
      rw [interval_enclose wellFormed box found]
      rw [Interval.mem_iff] at operandCase ⊢
      cases holds <;> simp only [Gate.enclose, Interval.not, Bool.toInt] at * <;> grind
  | all found _ operandCases =>
      rw [interval_enclose wellFormed box found]
      exact one_mem_foldl_and ((Interval.mem_point 1 1).mpr rfl) operandCases
  | notAll found member _ operandCase =>
      rw [interval_enclose wellFormed box found]
      exact zero_mem_foldl_and (by decide) (truths (.inl found)) (.inr ⟨_, member, operandCase⟩)
  | any found member _ operandCase =>
      rw [interval_enclose wellFormed box found]
      exact one_mem_foldl_or (by decide) (truths (.inr found)) (.inr ⟨_, member, operandCase⟩)
  | none found _ operandCases =>
      rw [interval_enclose wellFormed box found]
      exact zero_mem_foldl_or ((Interval.mem_point 0 0).mpr rfl) operandCases
  | compare found _ _ leftCase rightCase =>
      rw [interval_enclose wellFormed box found]
      exact Comparison.holds_mem_evaluate _ leftCase rightCase
  | sum found _ running operandCases =>
      rw [interval_enclose wellFormed box found]
      exact foldl_mem_sum operandCases (running.mono fun _ small => small.fits)
  | product found _ running operandCases =>
      rw [interval_enclose wellFormed box found]
      exact foldl_mem_product operandCases (running.mono fun _ small => small.fits)
  | neg found operand operandCase =>
      rw [interval_enclose wellFormed box found]
      exact Interval.neg_mem_neg operandCase operand.small.neg.fits
  | div found _ right small leftCase rightCase =>
      rw [interval_enclose wellFormed box found]
      exact Interval.ediv_mem_div leftCase rightCase right.small.fits small.fits
  | mod found _ _ small leftCase rightCase =>
      rw [interval_enclose wellFormed box found]
      exact Interval.emod_mem_mod leftCase rightCase small.fits
  | consequent found _ _ conditionCase chosenCase =>
      rw [interval_enclose wellFormed box found]
      simp only [Gate.enclose]
      split
      · exact chosenCase
      · split
        next isFalse =>
          exact absurd (Interval.eq_zero_of_isFalse isFalse conditionCase) (by decide)
        next => exact Interval.mem_hull_left _ chosenCase
  | alternative found _ _ conditionCase chosenCase =>
      rw [interval_enclose wellFormed box found]
      simp only [Gate.enclose]
      split
      next isTrue => exact absurd (Interval.eq_one_of_isTrue isTrue conditionCase) (by decide)
      next =>
        split
        · exact chosenCase
        · exact Interval.mem_hull_right _ chosenCase

end Circuit

end SymbolicSafety
