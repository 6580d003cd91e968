import SymbolicSafety.Proofs.GateValues
import SymbolicSafety.Proofs.SortSoundness

namespace SymbolicSafety

/-! The circuit of a formula. Where a formula has a value, its gate yields the
number of that value; a Boolean formula has a gate of truth values. -/

/-! ## Numbers for values -/

/-- The number that stands for a value in a circuit. -/
def Value.number : Value → Int
  | .bool value => value.toInt
  | .int value => value.toInt

theorem Value.small_number (value : Value) : Small value.number := by
  cases value with
  | bool holds => exact small_truth holds
  | int word => exact small_toInt word

theorem Value.eq_of_number_eq {left right : Value} (sort : left.sort = right.sort)
    (equal : left.number = right.number) : left = right := by
  cases left <;> cases right <;> simp_all [Value.sort, Value.number, Int64.toInt_inj]
  exact eq_of_truth_eq equal

def Valuation.number (valuation : Valuation) (symbol : Symbol) : Int :=
  match valuation.get? symbol with
  | some value => value.number
  | none => 0

theorem Valuation.number_of_get? {valuation : Valuation} {symbol : Symbol} {value : Value}
    (bound : valuation.get? symbol = some value) : valuation.number symbol = value.number := by
  simp [Valuation.number, bound]

theorem Domain.eq_bool_of_sort {domain : Domain} (boolean : domain.sort = .bool) :
    domain = .bool := by
  cases domain <;> simp_all [Domain.sort]

theorem Domain.number_mem_interval {domain : Domain} {interval : Interval} {value : Value}
    (finite : domain.interval? = some interval) (contains : domain.contains value = true) :
    value.number ∈ interval := by
  cases domain with
  | int => simp [Domain.interval?] at finite
  | bool =>
      cases value with
      | int => simp [Domain.contains] at contains
      | bool holds =>
          simp only [Domain.interval?, Option.some.injEq] at finite
          subst finite
          cases holds <;> simp [Value.number, Interval.undecided, Interval.mem_iff]
  | range least greatest =>
      cases value with
      | bool => simp [Domain.contains] at contains
      | int word =>
          simp only [Domain.interval?, Option.some.injEq] at finite
          subst finite
          simpa [Domain.contains, Int64.le_iff_toInt_le, Interval.mem_iff, Value.number] using
            contains

theorem Domain.contains_valueOf {domain : Domain} {interval : Interval} {number : Int}
    (finite : domain.interval? = some interval) (member : number ∈ interval) :
    domain.contains (domain.valueOf number) = true ∧ (domain.valueOf number).number = number := by
  rw [Interval.mem_iff] at member
  cases domain with
  | int => simp [Domain.interval?] at finite
  | bool =>
      simp only [Domain.interval?, Option.some.injEq] at finite
      subst finite
      obtain rfl | rfl : number = 0 ∨ number = 1 := by
        simp only [Interval.undecided] at member
        omega
      · simp [Domain.contains, Domain.valueOf, Value.number]
      · simp [Domain.contains, Domain.valueOf, Value.number]
  | range least greatest =>
      simp only [Domain.interval?, Option.some.injEq] at finite
      subst finite
      simp only at member
      have lower := least.le_toInt
      have upper := greatest.toInt_lt
      have exact : (Int64.ofInt number).toInt = number :=
        Int64.toInt_ofInt_of_le (by omega) (by omega)
      simp [Domain.contains, Domain.valueOf, Value.number, Int64.le_iff_toInt_le, exact, member]

/-! ## Growing circuits -/

namespace Circuit

structure Extends (circuit larger : Circuit) : Prop where
  gates : ∀ (position : Nat) (gate : Gate),
    circuit.gates[position]? = some gate → larger.gates[position]? = some gate
  inputs : ∀ (index : Nat) (input : Input),
    circuit.inputs[index]? = some input → larger.inputs[index]? = some input

theorem Extends.refl (circuit : Circuit) : circuit.Extends circuit :=
  ⟨fun _ _ found => found, fun _ _ found => found⟩

theorem Extends.trans {first second third : Circuit} (left : first.Extends second)
    (right : second.Extends third) : first.Extends third :=
  ⟨fun position gate found => right.gates position gate (left.gates position gate found),
    fun index input found => right.inputs index input (left.inputs index input found)⟩

theorem Truth.extend {circuit larger : Circuit} (extended : circuit.Extends larger) {gate : Nat}
    (truth : circuit.Truth gate) : larger.Truth gate := by
  induction truth with
  | constant holds found => exact .constant holds (extended.gates _ _ found)
  | input found held domain =>
      exact .input (extended.gates _ _ found) (extended.inputs _ _ held) domain
  | not found _ operandCase => exact .not (extended.gates _ _ found) operandCase
  | and found _ operandCases => exact .and (extended.gates _ _ found) operandCases
  | or found _ operandCases => exact .or (extended.gates _ _ found) operandCases
  | compare found => exact .compare (extended.gates _ _ found)
  | choose found _ _ consequentCase alternativeCase =>
      exact .choose (extended.gates _ _ found) consequentCase alternativeCase

theorem Admissible.extend {circuit larger : Circuit} (extended : circuit.Extends larger)
    {position : Nat} {gate : Gate} (admissible : circuit.Admissible position gate) :
    larger.Admissible position gate where
  earlier := admissible.earlier
  truths operands isJunction operand member :=
    (admissible.truths operands isJunction operand member).extend extended
  sole index isInput := by
    obtain ⟨input, held, placed⟩ := admissible.sole index isInput
    exact ⟨input, extended.inputs _ _ held, placed⟩

theorem extends_push (circuit : Circuit) (gate : Gate) :
    circuit.Extends (circuit.push gate).1 where
  gates position gate' found := by
    have less := (Array.getElem?_eq_some_iff.mp found).1
    simp only [push, Array.getElem?_push]
    rw [if_neg (by omega), found]
  inputs _ _ held := held

theorem gates_push (circuit : Circuit) (gate : Gate) :
    (circuit.push gate).1.gates[(circuit.push gate).2]? = some gate := by
  simp [push]

theorem WellFormed.push {circuit : Circuit} (wellFormed : circuit.WellFormed) {gate : Gate}
    (admissible : circuit.Admissible circuit.gates.size gate) :
    (circuit.push gate).1.WellFormed where
  admissible position gate' found := by
    have extended := circuit.extends_push gate
    simp only [Circuit.push, Array.getElem?_push] at found
    split at found
    next last =>
      obtain rfl := Option.some.inj found
      exact last ▸ admissible.extend extended
    next => exact (wellFormed.admissible position gate' found).extend extended
  placed index input held :=
    (circuit.extends_push gate).gates _ _ (wellFormed.placed index input held)
  finite := wellFormed.finite
  distinct := wellFormed.distinct

/-- The circuit has grown into a well-formed one, whose new inputs are among
the given symbols. -/
structure Grows (circuit larger : Circuit) (symbols : Symbol → Prop) : Prop where
  extended : circuit.Extends larger
  wellFormed : larger.WellFormed
  named : ∀ input ∈ larger.inputs, input ∈ circuit.inputs ∨ symbols input.symbol

theorem Grows.trans {first second third : Circuit} {symbols symbols' symbols'' : Symbol → Prop}
    (left : first.Grows second symbols) (right : second.Grows third symbols')
    (fromLeft : ∀ symbol, symbols symbol → symbols'' symbol)
    (fromRight : ∀ symbol, symbols' symbol → symbols'' symbol) : first.Grows third symbols'' where
  extended := left.extended.trans right.extended
  wellFormed := right.wellFormed
  named input member := by
    rcases right.named input member with member | named
    · exact (left.named input member).imp_right (fromLeft _)
    · exact .inr (fromRight _ named)

theorem Grows.push {circuit larger : Circuit} {symbols symbols' : Symbol → Prop}
    (grows : circuit.Grows larger symbols) {gate : Gate}
    (admissible : larger.Admissible larger.gates.size gate)
    (wider : ∀ symbol, symbols symbol → symbols' symbol) :
    circuit.Grows (larger.push gate).1 symbols' where
  extended := grows.extended.trans (larger.extends_push gate)
  wellFormed := grows.wellFormed.push admissible
  named input member := (grows.named input member).imp_right (wider _)

/-! ## The gate of a formula -/

/-- The gate at `gate` applies a binary operator to two gates. Implications and
differences have a gate in between, for the negated operand. -/
def Joins (circuit : Circuit) : BinaryOp → Nat → Nat → Nat → Prop
  | .implies, left, right, gate => ∃ negated,
      circuit.gates[negated]? = some (.not left) ∧
        circuit.gates[gate]? = some (BinaryOp.implies.gate negated right)
  | .sub, left, right, gate => ∃ negated,
      circuit.gates[negated]? = some (.neg right) ∧
        circuit.gates[gate]? = some (BinaryOp.sub.gate left negated)
  | op, left, right, gate => circuit.gates[gate]? = some (op.gate left right)

mutual

def Realizes (circuit : Circuit) : Formula → Nat → Prop
  | .bool value, gate => circuit.gates[gate]? = some (.constant (if value then 1 else 0))
  | .int value, gate => circuit.gates[gate]? = some (.constant value.toInt)
  | .symbol name, gate => ∃ index input, circuit.gates[gate]? = some (.input index) ∧
      circuit.inputs[index]? = some input ∧ input.symbol = name
  | .unary op operand, gate =>
      match op with
      | .prime => False
      | .not => ∃ below, circuit.Realizes operand below ∧
          circuit.gates[gate]? = some (.not below)
      | .neg => ∃ below, circuit.Realizes operand below ∧
          circuit.gates[gate]? = some (.neg below)
  | .binary op left right, gate => ∃ first second, circuit.Realizes left first ∧
      circuit.Realizes right second ∧ circuit.Joins op first second gate
  | .nary op operands, gate => ∃ below, circuit.RealizesAll operands below ∧
      circuit.gates[gate]? = some (op.gate below)
  | .ite condition consequent alternative, gate => ∃ first second third,
      circuit.Realizes condition first ∧ circuit.Realizes consequent second ∧
        circuit.Realizes alternative third ∧
        circuit.gates[gate]? = some (.choose first second third)

def RealizesAll (circuit : Circuit) : List Formula → List Nat → Prop
  | [], gates => gates = []
  | formula :: rest, gates => ∃ gate later, gates = gate :: later ∧
      circuit.Realizes formula gate ∧ circuit.RealizesAll rest later

end

variable {circuit larger : Circuit}

theorem Joins.extend (extended : circuit.Extends larger) {op : BinaryOp} {left right gate : Nat}
    (joins : circuit.Joins op left right gate) : larger.Joins op left right gate := by
  cases op <;> simp only [Joins] at joins ⊢
  case implies | sub =>
    obtain ⟨negated, below, found⟩ := joins
    exact ⟨negated, extended.gates _ _ below, extended.gates _ _ found⟩
  all_goals exact extended.gates _ _ joins

theorem RealizesAll.imp {formulas : List Formula} {gates : List Nat}
    (each : ∀ formula ∈ formulas, ∀ gate, circuit.Realizes formula gate →
      larger.Realizes formula gate)
    (realized : circuit.RealizesAll formulas gates) : larger.RealizesAll formulas gates := by
  induction formulas generalizing gates with
  | nil => exact realized
  | cons head rest induction =>
      obtain ⟨gate, later, rfl, first, others⟩ := realized
      rw [List.forall_mem_cons] at each
      exact ⟨gate, later, rfl, each.1 gate first, induction each.2 others⟩

theorem Realizes.extend (extended : circuit.Extends larger) {formula : Formula} {gate : Nat}
    (realized : circuit.Realizes formula gate) : larger.Realizes formula gate := by
  induction formula generalizing gate with
  | bool | int => exact extended.gates _ _ realized
  | symbol name =>
      obtain ⟨index, input, found, held, named⟩ := realized
      exact ⟨index, input, extended.gates _ _ found, extended.inputs _ _ held, named⟩
  | unary op operand operandCase =>
      cases op with
      | prime => exact realized
      | not | neg =>
          obtain ⟨below, operandRealized, found⟩ := realized
          exact ⟨below, operandCase operandRealized, extended.gates _ _ found⟩
  | binary op left right leftCase rightCase =>
      obtain ⟨first, second, leftRealized, rightRealized, joins⟩ := realized
      exact ⟨first, second, leftCase leftRealized, rightCase rightRealized, joins.extend extended⟩
  | nary op operands operandCases =>
      obtain ⟨below, operandsRealized, found⟩ := realized
      exact ⟨below, operandsRealized.imp fun formula member _ =>
        operandCases formula member, extended.gates _ _ found⟩
  | ite condition consequent alternative conditionCase consequentCase alternativeCase =>
      obtain ⟨first, second, third, conditionRealized, consequentRealized, alternativeRealized,
        found⟩ := realized
      exact ⟨first, second, third, conditionCase conditionRealized,
        consequentCase consequentRealized, alternativeCase alternativeRealized,
        extended.gates _ _ found⟩

theorem RealizesAll.exists_formula {formulas : List Formula} {gates : List Nat}
    (realized : circuit.RealizesAll formulas gates) {gate : Nat} (member : gate ∈ gates) :
    ∃ formula ∈ formulas, circuit.Realizes formula gate := by
  induction formulas generalizing gates with
  | nil => simp [show gates = [] from realized] at member
  | cons head rest induction =>
      obtain ⟨first, later, rfl, headRealized, others⟩ := realized
      rcases List.mem_cons.mp member with rfl | member
      · exact ⟨head, List.mem_cons_self, headRealized⟩
      · obtain ⟨formula, inRest, found⟩ := induction others member
        exact ⟨formula, List.mem_cons_of_mem _ inRest, found⟩

theorem RealizesAll.forall_gates {common : Nat → Prop} {operands : List Formula} {gates : List Nat}
    (realized : circuit.RealizesAll operands gates)
    (each : ∀ operand ∈ operands, ∀ gate, circuit.Realizes operand gate → common gate) :
    ∀ gate ∈ gates, common gate := by
  intro gate member
  obtain ⟨operand, inOperands, operandRealized⟩ := realized.exists_formula member
  exact each operand inOperands gate operandRealized

theorem RealizesAll.exists_gate {formulas : List Formula} {gates : List Nat}
    (realized : circuit.RealizesAll formulas gates) {formula : Formula}
    (member : formula ∈ formulas) : ∃ gate ∈ gates, circuit.Realizes formula gate := by
  induction formulas generalizing gates with
  | nil => simp at member
  | cons head rest induction =>
      obtain ⟨first, later, rfl, headRealized, others⟩ := realized
      rcases List.mem_cons.mp member with rfl | member
      · exact ⟨first, List.mem_cons_self, headRealized⟩
      · obtain ⟨gate, inLater, found⟩ := induction others member
        exact ⟨gate, List.mem_cons_of_mem _ inLater, found⟩

theorem Realizes.lt {formula : Formula} {gate : Nat} (realized : circuit.Realizes formula gate) :
    gate < circuit.gates.size := by
  suffices placed : ∃ kind, circuit.gates[gate]? = some kind by
    obtain ⟨kind, found⟩ := placed
    exact (Array.getElem?_eq_some_iff.mp found).1
  cases formula with
  | bool | int => exact ⟨_, realized⟩
  | symbol name =>
      obtain ⟨index, input, found, -⟩ := realized
      exact ⟨_, found⟩
  | unary op operand =>
      cases op with
      | prime => exact realized.elim
      | not | neg =>
          obtain ⟨below, -, found⟩ := realized
          exact ⟨_, found⟩
  | binary op left right =>
      obtain ⟨first, second, -, -, joins⟩ := realized
      cases op <;> simp only [Joins] at joins
      case implies | sub =>
        obtain ⟨negated, -, found⟩ := joins
        exact ⟨_, found⟩
      all_goals exact ⟨_, joins⟩
  | nary op operands =>
      obtain ⟨below, -, found⟩ := realized
      exact ⟨_, found⟩
  | ite condition consequent alternative =>
      obtain ⟨first, second, third, -, -, -, found⟩ := realized
      exact ⟨_, found⟩

theorem Realizes.primeFree {formula : Formula} {gate : Nat}
    (realized : circuit.Realizes formula gate) : formula.PrimeFree := by
  induction formula generalizing gate with
  | bool | int | symbol => simp
  | unary op operand operandCase =>
      cases op with
      | prime => exact realized.elim
      | not | neg =>
          obtain ⟨below, operandRealized, -⟩ := realized
          simpa using operandCase operandRealized
  | binary op left right leftCase rightCase =>
      obtain ⟨first, second, leftRealized, rightRealized, -⟩ := realized
      simpa using ⟨leftCase leftRealized, rightCase rightRealized⟩
  | nary op operands operandCases =>
      obtain ⟨below, operandsRealized, -⟩ := realized
      refine (Formula.primeFree_nary ..).mpr fun operand member => ?_
      obtain ⟨gate, -, operandRealized⟩ := operandsRealized.exists_gate member
      exact operandCases operand member operandRealized
  | ite condition consequent alternative conditionCase consequentCase alternativeCase =>
      obtain ⟨first, second, third, conditionRealized, consequentRealized, alternativeRealized,
        -⟩ := realized
      simpa using ⟨conditionCase conditionRealized, consequentCase consequentRealized,
        alternativeCase alternativeRealized⟩

theorem Realizes.exists_input {formula : Formula} {gate : Nat}
    (realized : circuit.Realizes formula gate) {symbol : Symbol}
    (mentions : formula.Mentions symbol) :
    ∃ (index : Nat) (input : Input),
      circuit.inputs[index]? = some input ∧ input.symbol = symbol := by
  induction formula generalizing gate with
  | bool | int => simp at mentions
  | symbol name =>
      obtain ⟨index, input, -, held, named⟩ := realized
      rw [Formula.mentions_symbol] at mentions
      exact ⟨index, input, held, named.trans mentions.symm⟩
  | unary op operand operandCase =>
      rw [Formula.mentions_unary] at mentions
      cases op with
      | prime => exact realized.elim
      | not | neg =>
          obtain ⟨below, operandRealized, -⟩ := realized
          exact operandCase operandRealized mentions
  | binary op left right leftCase rightCase =>
      obtain ⟨first, second, leftRealized, rightRealized, -⟩ := realized
      rcases (Formula.mentions_binary op left right symbol).mp mentions with inLeft | inRight
      · exact leftCase leftRealized inLeft
      · exact rightCase rightRealized inRight
  | nary op operands operandCases =>
      obtain ⟨below, operandsRealized, -⟩ := realized
      obtain ⟨operand, member, inOperand⟩ := (Formula.mentions_nary op operands symbol).mp mentions
      obtain ⟨gate, -, operandRealized⟩ := operandsRealized.exists_gate member
      exact operandCases operand member operandRealized inOperand
  | ite condition consequent alternative conditionCase consequentCase alternativeCase =>
      obtain ⟨first, second, third, conditionRealized, consequentRealized, alternativeRealized,
        -⟩ := realized
      rcases (Formula.mentions_ite _ _ _ symbol).mp mentions with
        inCondition | inConsequent | inAlternative
      · exact conditionCase conditionRealized inCondition
      · exact consequentCase consequentRealized inConsequent
      · exact alternativeCase alternativeRealized inAlternative

theorem Realizes.truth {formula : Formula} {gate : Nat}
    (realized : circuit.Realizes formula gate) (typed : formula.HasSort .bool) :
    circuit.Truth gate := by
  induction formula generalizing gate with
  | bool value =>
      refine .constant value ?_
      cases value <;> exact realized
  | int => cases typed
  | symbol name =>
      obtain ⟨index, input, found, held, rfl⟩ := realized
      rw [Formula.hasSort_symbol_iff] at typed
      exact .input found held (Domain.eq_bool_of_sort typed)
  | unary op operand operandCase =>
      cases op with
      | prime => exact realized.elim
      | not =>
          obtain ⟨below, operandRealized, found⟩ := realized
          cases typed with
          | not operandTyped => exact .not found (operandCase operandRealized operandTyped)
      | neg => cases typed
  | binary op left right leftCase rightCase =>
      obtain ⟨first, second, leftRealized, rightRealized, joins⟩ := realized
      cases typed with
      | binary sorts leftTyped rightTyped =>
          cases op <;> simp only [Joins, BinaryOp.gate, BinaryOp.Sorts] at joins sorts
          case implies =>
            obtain ⟨negated, below, found⟩ := joins
            obtain ⟨rfl, rfl, -⟩ := sorts
            refine .or found fun operand member => ?_
            simp only [List.mem_cons, List.not_mem_nil, or_false] at member
            rcases member with rfl | rfl
            · exact .not below (leftCase leftRealized leftTyped)
            · exact rightCase rightRealized rightTyped
          case sub | div | mod => simp at sorts
          all_goals exact .compare joins
  | nary op operands operandCases =>
      obtain ⟨below, operandsRealized, found⟩ := realized
      have truths (each : ∀ operand ∈ operands, operand.HasSort .bool) :
          ∀ gate ∈ below, circuit.Truth gate :=
        operandsRealized.forall_gates fun operand member _ operandRealized =>
          operandCases operand member operandRealized (each operand member)
      obtain ⟨sort, each⟩ := (Formula.hasSort_nary_iff op operands .bool).mp typed
      cases op with
      | and => exact .and found (truths each)
      | or => exact .or found (truths each)
      | add | mul => cases sort
  | ite condition consequent alternative conditionCase consequentCase alternativeCase =>
      obtain ⟨first, second, third, -, consequentRealized, alternativeRealized, found⟩ := realized
      cases typed with
      | ite _ consequentTyped alternativeTyped =>
          exact .choose found (consequentCase consequentRealized consequentTyped)
            (alternativeCase alternativeRealized alternativeTyped)

/-! ## Adding formulas -/

theorem admissible_of_reads {position : Nat} {gate : Gate}
    (earlier : ∀ operand ∈ gate.reads, operand < position)
    (other : ∀ operands, gate ≠ .and operands ∧ gate ≠ .or operands)
    (notInput : ∀ index, gate ≠ .input index) : circuit.Admissible position gate where
  earlier := earlier
  sole index isInput := absurd isInput (notInput index)
  truths operands isJunction := by
    rcases isJunction with equal | equal
    · exact absurd equal (other operands).1
    · exact absurd equal (other operands).2

theorem grows_addInput (wellFormed : circuit.WellFormed) {symbol : Symbol} {domain : Interval}
    (fresh : ∀ input ∈ circuit.inputs, input.symbol ≠ symbol)
    (finite : symbol.domain.interval? = some domain) :
    circuit.Grows ⟨circuit.gates.push (.input circuit.inputs.size),
      circuit.inputs.push ⟨symbol, domain, circuit.gates.size⟩⟩ (· = symbol) := by
  have gates := (circuit.extends_push (.input circuit.inputs.size)).gates
  have inputs (index : Nat) (input : Input)
      (held : (circuit.inputs.push ⟨symbol, domain, circuit.gates.size⟩)[index]? = some input) :
      circuit.inputs[index]? = some input ∨
        (index = circuit.inputs.size ∧ input = ⟨symbol, domain, circuit.gates.size⟩) := by
    rw [Array.getElem?_push] at held
    split at held
    next last => exact .inr ⟨last, (Option.some.inj held).symm⟩
    next => exact .inl held
  have extended : circuit.Extends ⟨circuit.gates.push (.input circuit.inputs.size),
      circuit.inputs.push ⟨symbol, domain, circuit.gates.size⟩⟩ := by
    refine ⟨gates, fun index input held => ?_⟩
    have less := (Array.getElem?_eq_some_iff.mp held).1
    rw [Array.getElem?_push, if_neg (by omega), held]
  refine ⟨extended, ⟨?_, ?_, ?_, ?_⟩, ?_⟩
  · intro position gate found
    rw [Array.getElem?_push] at found
    split at found
    next last =>
      obtain rfl := Option.some.inj found
      refine ⟨by simp [Gate.reads], by simp, fun index isInput => ?_⟩
      exact ⟨⟨symbol, domain, circuit.gates.size⟩, by simp [← Gate.input.inj isInput], last.symm⟩
    next => exact (wellFormed.admissible position gate found).extend extended
  · intro index input held
    rcases inputs index input held with earlier | ⟨rfl, rfl⟩
    · exact gates _ _ (wellFormed.placed index input earlier)
    · simp
  · intro index input held
    rcases inputs index input held with earlier | ⟨rfl, rfl⟩
    · exact wellFormed.finite index input earlier
    · exact finite
  · intro index other input input' held held' same
    rcases inputs index input held with earlier | ⟨rfl, rfl⟩ <;>
      rcases inputs other input' held' with earlier' | ⟨rfl, rfl⟩
    · exact wellFormed.distinct index other input input' earlier earlier' same
    · exact absurd same (fresh input (Array.mem_of_getElem? earlier))
    · exact absurd same.symm (fresh input' (Array.mem_of_getElem? earlier'))
    · rfl
  · intro input member
    rcases Array.mem_push.mp member with earlier | rfl
    · exact .inl earlier
    · exact .inr rfl

theorem addSymbol_spec (wellFormed : circuit.WellFormed) {symbol : Symbol} {gate : Nat}
    (added : circuit.addSymbol symbol = .ok (larger, gate)) :
    circuit.Grows larger (· = symbol) ∧ larger.Realizes (.symbol symbol) gate := by
  simp only [addSymbol] at added
  split at added
  next input found =>
    simp only [Except.ok.injEq, Prod.mk.injEq] at added
    obtain ⟨rfl, rfl⟩ := added
    obtain ⟨index, held⟩ := Array.mem_iff_getElem?.mp (Array.mem_of_find?_eq_some found)
    have named : input.symbol = symbol := by simpa using Array.find?_some found
    exact ⟨⟨.refl circuit, wellFormed, fun _ member => .inl member⟩,
      index, input, wellFormed.placed index input held, held, named⟩
  next absent =>
    split at added
    next => simp at added
    next domain finite =>
      simp only [push, Except.ok.injEq, Prod.mk.injEq] at added
      obtain ⟨rfl, rfl⟩ := added
      have fresh : ∀ input ∈ circuit.inputs, input.symbol ≠ symbol := by
        simpa using Array.find?_eq_none.mp absent
      refine ⟨grows_addInput wellFormed fresh finite, ?_⟩
      exact ⟨circuit.inputs.size, ⟨symbol, domain, circuit.gates.size⟩, by simp, by simp, rfl⟩

private theorem mem_reads_gate {op : BinaryOp} {left right operand : Nat}
    (member : operand ∈ (op.gate left right).reads) : operand = left ∨ operand = right := by
  cases op <;> simp_all [BinaryOp.gate, Gate.reads] <;> exact member.symm

private theorem reads_gate (op : NaryOp) (operands : List Nat) :
    (op.gate operands).reads = operands := by
  cases op <;> rfl

private theorem admissible_nary {op : NaryOp} {operands : List Formula} {gates : List Nat}
    (typed : ∀ operand ∈ operands, operand.HasSort op.sort)
    (realized : circuit.RealizesAll operands gates) :
    circuit.Admissible circuit.gates.size (op.gate gates) where
  earlier gate member := by
    rw [reads_gate] at member
    obtain ⟨operand, -, operandRealized⟩ := realized.exists_formula member
    exact operandRealized.lt
  sole index isInput := by cases op <;> simp [NaryOp.gate] at isInput
  truths operands' isJunction gate member := by
    have boolean : op.sort = .bool ∧ operands' = gates := by
      cases op <;> simp_all [NaryOp.gate, NaryOp.sort]
    rw [boolean.2] at member
    obtain ⟨operand, inOperands, operandRealized⟩ := realized.exists_formula member
    exact operandRealized.truth (boolean.1 ▸ typed operand inOperands)

theorem addAll_spec {formulas : List Formula}
    (each : ∀ formula ∈ formulas, ∀ {circuit larger : Circuit} {gate : Nat}, circuit.WellFormed →
      addFormula formula circuit = .ok (larger, gate) →
      circuit.Grows larger formula.Mentions ∧ larger.Realizes formula gate)
    {gates : List Nat} (wellFormed : circuit.WellFormed)
    (added : addAll formulas circuit = .ok (larger, gates)) :
    circuit.Grows larger (fun symbol => ∃ formula ∈ formulas, formula.Mentions symbol) ∧
      larger.RealizesAll formulas gates := by
  induction formulas generalizing circuit gates with
  | nil =>
      simp only [addAll, Except.ok.injEq, Prod.mk.injEq] at added
      obtain ⟨rfl, rfl⟩ := added
      exact ⟨⟨.refl circuit, wellFormed, fun _ member => .inl member⟩, rfl⟩
  | cons head rest induction =>
      simp only [addAll, Outcome.bind_eq_ok_iff, Outcome.pure_eq_ok_iff, Prod.exists,
        Prod.mk.injEq] at added
      obtain ⟨middle, gate, headAdded, larger, later, restAdded, rfl, rfl⟩ := added
      rw [List.forall_mem_cons] at each
      obtain ⟨grows, headRealized⟩ := each.1 wellFormed headAdded
      obtain ⟨grows', restRealized⟩ := induction each.2 grows.wellFormed restAdded
      refine ⟨grows.trans grows' ?_ ?_, gate, later, rfl, headRealized.extend grows'.extended,
        restRealized⟩
      · exact fun symbol mentions => ⟨head, List.mem_cons_self, mentions⟩
      · rintro symbol ⟨formula, member, mentions⟩
        exact ⟨formula, List.mem_cons_of_mem _ member, mentions⟩

private theorem push_binary_spec {op : BinaryOp} {left right : Formula} {before : Circuit}
    {first second first' second' : Nat}
    (grows : before.Grows circuit (Formula.binary op left right).Mentions)
    (leftRealized : circuit.Realizes left first) (rightRealized : circuit.Realizes right second)
    (firstLess : first' < circuit.gates.size) (secondLess : second' < circuit.gates.size)
    (truths : op = .implies → circuit.Truth first' ∧ circuit.Truth second')
    (joins : ∀ larger : Circuit, circuit.Extends larger →
      larger.gates[circuit.gates.size]? = some (op.gate first' second') →
      larger.Joins op first second circuit.gates.size) :
    before.Grows (circuit.push (op.gate first' second')).1
        (Formula.binary op left right).Mentions ∧
      (circuit.push (op.gate first' second')).1.Realizes (.binary op left right)
        circuit.gates.size := by
  have extended := circuit.extends_push (op.gate first' second')
  refine ⟨grows.push ⟨?_, ?_, ?_⟩ fun _ mentions => mentions, first, second,
    leftRealized.extend extended, rightRealized.extend extended,
    joins _ extended (circuit.gates_push _)⟩
  · intro operand member
    rcases mem_reads_gate member with rfl | rfl
    · exact firstLess
    · exact secondLess
  · intro operands isJunction operand member
    have isImplication : op = .implies ∧ operands = [first', second'] := by
      cases op <;> simp_all [BinaryOp.gate]
    obtain ⟨firstTruth, secondTruth⟩ := truths isImplication.1
    rw [isImplication.2] at member
    simp only [List.mem_cons, List.not_mem_nil, or_false] at member
    rcases member with rfl | rfl
    · exact firstTruth
    · exact secondTruth
  · intro index isInput
    cases op <;> simp [BinaryOp.gate] at isInput

private theorem addBinary_spec {op : BinaryOp} {left right : Formula}
    {firstSort secondSort sort : ValueSort} (sorts : op.Sorts firstSort secondSort sort)
    (leftTyped : left.HasSort firstSort) (rightTyped : right.HasSort secondSort)
    (leftCase : ∀ {circuit larger : Circuit} {gate : Nat}, circuit.WellFormed →
      addFormula left circuit = .ok (larger, gate) →
      circuit.Grows larger left.Mentions ∧ larger.Realizes left gate)
    (rightCase : ∀ {circuit larger : Circuit} {gate : Nat}, circuit.WellFormed →
      addFormula right circuit = .ok (larger, gate) →
      circuit.Grows larger right.Mentions ∧ larger.Realizes right gate)
    {gate : Nat} (wellFormed : circuit.WellFormed)
    (added : addFormula (.binary op left right) circuit = .ok (larger, gate)) :
    circuit.Grows larger (Formula.binary op left right).Mentions ∧
      larger.Realizes (.binary op left right) gate := by
  simp only [addFormula, Outcome.bind_eq_ok_iff, Outcome.pure_eq_ok_iff, Prod.exists] at added
  obtain ⟨middle, first, leftAdded, last, second, rightAdded, equal⟩ := added
  obtain ⟨rfl, rfl⟩ := Prod.mk.inj equal
  obtain ⟨leftGrows, leftRealized⟩ := leftCase wellFormed leftAdded
  have inLeft (symbol : Symbol) (mentions : left.Mentions symbol) :
      (Formula.binary op left right).Mentions symbol := by simp [mentions]
  have inRight (symbol : Symbol) (mentions : right.Mentions symbol) :
      (Formula.binary op left right).Mentions symbol := by simp [mentions]
  by_cases implication : op = .implies
  · subst implication
    obtain ⟨rfl, rfl, -⟩ := sorts
    simp only [if_true, reduceCtorEq, if_false] at rightAdded ⊢
    have negated : middle.Admissible middle.gates.size (.not first) :=
      admissible_of_reads (by simpa [Gate.reads] using leftRealized.lt) (by simp) (by simp)
    have middleGrows := leftGrows.push negated fun _ mentions => mentions
    obtain ⟨rightGrows, rightRealized⟩ := rightCase middleGrows.wellFormed rightAdded
    have leftRealized := leftRealized.extend ((middle.extends_push _).trans rightGrows.extended)
    have found := rightGrows.extended.gates _ _ (middle.gates_push (.not first))
    refine push_binary_spec (middleGrows.trans rightGrows inLeft inRight) leftRealized
      rightRealized (Array.getElem?_eq_some_iff.mp found).1 rightRealized.lt ?_ ?_
    · exact fun _ => ⟨.not found (leftRealized.truth leftTyped), rightRealized.truth rightTyped⟩
    · exact fun larger extended placed => ⟨_, extended.gates _ _ found, placed⟩
  · simp only [implication, if_false] at rightAdded ⊢
    obtain ⟨rightGrows, rightRealized⟩ := rightCase leftGrows.wellFormed rightAdded
    have grows := leftGrows.trans rightGrows inLeft inRight
    have leftRealized := leftRealized.extend rightGrows.extended
    by_cases difference : op = .sub
    · subst difference
      simp only [if_true]
      have negated : last.Admissible last.gates.size (.neg second) :=
        admissible_of_reads (by simpa [Gate.reads] using rightRealized.lt) (by simp) (by simp)
      have extended := last.extends_push (.neg second)
      have found := last.gates_push (.neg second)
      refine push_binary_spec (grows.push negated fun _ mentions => mentions)
        (leftRealized.extend extended) (rightRealized.extend extended)
        (leftRealized.extend extended).lt (Array.getElem?_eq_some_iff.mp found).1 (by simp) ?_
      exact fun larger extended placed => ⟨_, extended.gates _ _ found, placed⟩
    · simp only [difference, if_false]
      refine push_binary_spec grows leftRealized rightRealized leftRealized.lt rightRealized.lt
        (fun equal => absurd equal implication) fun larger extended placed => ?_
      cases op <;> simp_all [Joins]

/-- Adding a well-sorted formula keeps a circuit well formed and gives a gate
that computes the formula. -/
theorem addFormula_spec {formula : Formula} {sort : ValueSort} (typed : formula.HasSort sort)
    {gate : Nat} (wellFormed : circuit.WellFormed)
    (added : addFormula formula circuit = .ok (larger, gate)) :
    circuit.Grows larger formula.Mentions ∧ larger.Realizes formula gate := by
  have constant (value : Int) (formula : Formula) {circuit : Circuit}
      (wellFormed : circuit.WellFormed) :
      circuit.Grows (circuit.push (.constant value)).1 formula.Mentions := by
    have unchanged : circuit.Grows circuit formula.Mentions :=
      ⟨.refl circuit, wellFormed, fun _ member => .inl member⟩
    exact unchanged.push (admissible_of_reads (by simp [Gate.reads]) (by simp) (by simp))
      fun _ mentions => mentions
  induction typed generalizing circuit larger gate with
  | bool value =>
      simp only [addFormula, Except.ok.injEq] at added
      obtain ⟨rfl, rfl⟩ := Prod.mk.inj added
      exact ⟨constant _ _ wellFormed, circuit.gates_push _⟩
  | int value =>
      simp only [addFormula, Except.ok.injEq] at added
      obtain ⟨rfl, rfl⟩ := Prod.mk.inj added
      exact ⟨constant _ _ wellFormed, circuit.gates_push _⟩
  | symbol name =>
      simp only [addFormula] at added
      obtain ⟨grows, realized⟩ := addSymbol_spec wellFormed added
      refine ⟨⟨grows.extended, grows.wellFormed, fun input member => ?_⟩, realized⟩
      simpa using grows.named input member
  | prime => simp [addFormula] at added
  | not _ operandCase | neg _ operandCase =>
      simp only [addFormula, Outcome.bind_eq_ok_iff, Outcome.pure_eq_ok_iff, Prod.exists] at added
      obtain ⟨middle, below, operandAdded, equal⟩ := added
      obtain ⟨rfl, rfl⟩ := Prod.mk.inj equal
      obtain ⟨grows, realized⟩ := operandCase wellFormed operandAdded
      refine ⟨grows.push (admissible_of_reads ?_ (by simp) (by simp)) ?_, below,
        realized.extend (middle.extends_push _), middle.gates_push _⟩
      · simpa [Gate.reads] using realized.lt
      · exact fun symbol mentions => by simpa using mentions
  | binary sorts leftTyped rightTyped leftCase rightCase =>
      exact addBinary_spec sorts leftTyped rightTyped leftCase rightCase wellFormed added
  | nary each operandCases =>
      simp only [addFormula, Outcome.bind_eq_ok_iff, Outcome.pure_eq_ok_iff, Prod.exists] at added
      obtain ⟨middle, below, operandsAdded, equal⟩ := added
      obtain ⟨rfl, rfl⟩ := Prod.mk.inj equal
      obtain ⟨grows, realized⟩ := addAll_spec operandCases wellFormed operandsAdded
      refine ⟨grows.push (admissible_nary each realized) ?_, below, ?_, middle.gates_push _⟩
      · exact fun symbol mentions => by simpa using mentions
      · exact realized.imp fun _ _ _ operandRealized =>
          operandRealized.extend (middle.extends_push _)
  | @ite condition consequent alternative _ _ _ _ conditionCase consequentCase alternativeCase =>
      simp only [addFormula, Outcome.bind_eq_ok_iff, Outcome.pure_eq_ok_iff, Prod.exists] at added
      obtain ⟨middle, first, conditionAdded, middle', second, consequentAdded, last, third,
        alternativeAdded, equal⟩ := added
      obtain ⟨rfl, rfl⟩ := Prod.mk.inj equal
      obtain ⟨grows, conditionRealized⟩ := conditionCase wellFormed conditionAdded
      obtain ⟨grows', consequentRealized⟩ := consequentCase grows.wellFormed consequentAdded
      obtain ⟨grows'', alternativeRealized⟩ := alternativeCase grows'.wellFormed alternativeAdded
      have conditionRealized :=
        conditionRealized.extend (grows'.extended.trans grows''.extended)
      have consequentRealized := consequentRealized.extend grows''.extended
      have extended := last.extends_push (.choose first second third)
      have branches : middle.Grows last fun symbol =>
          consequent.Mentions symbol ∨ alternative.Mentions symbol :=
        grows'.trans grows'' (fun _ => .inl) fun _ => .inr
      have grown : circuit.Grows last (Formula.ite condition consequent alternative).Mentions :=
        grows.trans branches (fun symbol mentions => by simp [mentions])
          fun symbol mentions => by simp [mentions]
      refine ⟨grown.push (admissible_of_reads ?_ (by simp) (by simp)) fun _ mentions => mentions,
        first, second, third, conditionRealized.extend extended, consequentRealized.extend extended,
        alternativeRealized.extend extended, last.gates_push _⟩
      simpa [Gate.reads] using
        ⟨conditionRealized.lt, consequentRealized.lt, alternativeRealized.lt⟩

end Circuit

end SymbolicSafety
