import SymbolicSafety.Proofs.Acceptance
import SymbolicSafety.Proofs.FixedInputs

namespace SymbolicSafety

/-! The bounds of compiled formulas. Every part of a compiled formula has a gate of
its own. Over a box, the bounds of that gate hold the value of the part wherever
it has one; over a single point they are just that value. -/

namespace Circuit

variable {circuit larger before : Circuit} {part formula : Formula}

/-! ## The gates of symbols -/

/-- The gate reads the symbol. -/
def StandsFor (circuit : Circuit) (gate : Nat) (symbol : Symbol) : Prop :=
  ∃ index input, circuit.gates[gate]? = some (.input index) ∧
    circuit.inputs[index]? = some input ∧ input.symbol = symbol

theorem StandsFor.unique (wellFormed : circuit.WellFormed) {gate other : Nat} {symbol : Symbol}
    (first : circuit.StandsFor gate symbol) (second : circuit.StandsFor other symbol) :
    other = gate := by
  obtain ⟨index, input, found, held, named⟩ := first
  obtain ⟨index', input', found', held', named'⟩ := second
  obtain rfl := wellFormed.distinct index index' input input' held held' (named.trans named'.symm)
  obtain ⟨own, owned, placed⟩ := (wellFormed.admissible gate _ found).sole index rfl
  obtain ⟨own', owned', placed'⟩ := (wellFormed.admissible other _ found').sole index rfl
  obtain rfl := Option.some.inj (owned.symm.trans owned')
  exact placed'.symm.trans placed

/-! ## The gates of parts -/

/-- While the formula is added to the circuit, the part is added to `before`: the
circuit as far as it has come by then. -/
inductive AddedWithin (part : Formula) (before : Circuit) : Formula → Circuit → Prop where
  | here : AddedWithin part before part before
  | unary {op : UnaryOp} {operand : Formula} {circuit : Circuit} :
      AddedWithin part before operand circuit →
      AddedWithin part before (.unary op operand) circuit
  | left {op : BinaryOp} {left right : Formula} {circuit : Circuit} :
      AddedWithin part before left circuit →
      AddedWithin part before (.binary op left right) circuit
  | right {op : BinaryOp} {left right : Formula} {circuit middle : Circuit} {gate : Nat} :
      addFormula left circuit = .ok (middle, gate) →
      AddedWithin part before right
        (if op = .implies then middle.push (.not gate) else (middle, gate)).1 →
      AddedWithin part before (.binary op left right) circuit
  | operand {op : NaryOp} {operand : Formula} {front back : List Formula}
      {circuit middle : Circuit} {gates : List Nat} :
      addAll front circuit = .ok (middle, gates) → AddedWithin part before operand middle →
      AddedWithin part before (.nary op (front ++ operand :: back)) circuit
  | condition {condition consequent alternative : Formula} {circuit : Circuit} :
      AddedWithin part before condition circuit →
      AddedWithin part before (.ite condition consequent alternative) circuit
  | consequent {condition consequent alternative : Formula} {circuit middle : Circuit}
      {gate : Nat} :
      addFormula condition circuit = .ok (middle, gate) →
      AddedWithin part before consequent middle →
      AddedWithin part before (.ite condition consequent alternative) circuit
  | alternative {condition consequent alternative : Formula} {circuit middle further : Circuit}
      {first second : Nat} :
      addFormula condition circuit = .ok (middle, first) →
      addFormula consequent middle = .ok (further, second) →
      AddedWithin part before alternative further →
      AddedWithin part before (.ite condition consequent alternative) circuit

theorem exists_addedWithin (occurs : Formula.Occurs part formula) (bounded : formula.Bounded)
    (circuit : Circuit) : ∃ before, AddedWithin part before formula circuit := by
  induction occurs generalizing circuit with
  | here => exact ⟨circuit, .here⟩
  | @within formula child member _ induction =>
      have ofChild := induction (bounded.child member)
      cases formula with
      | bool | int | symbol => simp [Formula.children] at member
      | unary op operand =>
          obtain rfl : child = operand := by simpa [Formula.children] using member
          obtain ⟨before, within⟩ := ofChild circuit
          exact ⟨before, .unary within⟩
      | binary op left right =>
          have isOperand : child = left ∨ child = right := by
            simpa [Formula.children] using member
          rcases isOperand with rfl | rfl
          · obtain ⟨before, within⟩ := ofChild circuit
            exact ⟨before, .left within⟩
          · obtain ⟨middle, gate, added⟩ :=
              exists_addFormula (bounded.child List.mem_cons_self) circuit
            obtain ⟨before, within⟩ := ofChild _
            exact ⟨before, .right added within⟩
      | nary op operands =>
          obtain ⟨front, back, rfl⟩ := List.append_of_mem member
          obtain ⟨middle, gates, added⟩ := exists_addAll (fun operand inFront circuit =>
            exists_addFormula (bounded.child (List.mem_append_left _ inFront)) circuit) circuit
          obtain ⟨before, within⟩ := ofChild middle
          exact ⟨before, .operand added within⟩
      | ite condition consequent alternative =>
          have isOperand : child = condition ∨ child = consequent ∨ child = alternative := by
            simpa [Formula.children] using member
          have ofCondition : condition.Bounded := bounded.child (by simp [Formula.children])
          have ofConsequent : consequent.Bounded := bounded.child (by simp [Formula.children])
          obtain ⟨middle, first, conditionAdded⟩ := exists_addFormula ofCondition circuit
          obtain ⟨further, second, consequentAdded⟩ := exists_addFormula ofConsequent middle
          rcases isOperand with rfl | rfl | rfl
          · obtain ⟨before, within⟩ := ofChild circuit
            exact ⟨before, .condition within⟩
          · obtain ⟨before, within⟩ := ofChild middle
            exact ⟨before, .consequent conditionAdded within⟩
          · obtain ⟨before, within⟩ := ofChild further
            exact ⟨before, .alternative conditionAdded consequentAdded within⟩

/-- The gate computes the part, and it is the one that adding the part to `before`
gave. -/
structure GateOf (circuit : Circuit) (part : Formula) (before : Circuit) (gate : Nat) :
    Prop where
  typed : ∃ sort, part.HasSort sort
  added : ∃ after, addFormula part before = .ok (after, gate)
  realized : circuit.Realizes part gate

theorem GateOf.extend (extended : circuit.Extends larger) {gate : Nat}
    (gateOf : circuit.GateOf part before gate) : larger.GateOf part before gate :=
  ⟨gateOf.typed, gateOf.added, gateOf.realized.extend extended⟩

private theorem addBinary_steps {op : BinaryOp} {left right : Formula} {root : Nat}
    {sort : ValueSort} (typed : (Formula.binary op left right).HasSort sort)
    (wellFormed : circuit.WellFormed)
    (added : addFormula (.binary op left right) circuit = .ok (larger, root)) :
    ∃ leftSort rightSort middle first last second,
      (left.HasSort leftSort ∧ addFormula left circuit = .ok (middle, first) ∧
        middle.Extends larger) ∧
      right.HasSort rightSort ∧
        (if op = .implies then middle.push (.not first) else (middle, first)).1.WellFormed ∧
        addFormula right (if op = .implies then middle.push (.not first) else (middle, first)).1 =
          .ok (last, second) ∧ last.Extends larger := by
  simp only [addFormula, Outcome.bind_eq_ok_iff, Outcome.pure_eq_ok_iff, Prod.exists] at added
  obtain ⟨middle, first, leftAdded, last, second, rightAdded, equal⟩ := added
  obtain ⟨rfl, rfl⟩ := Prod.mk.inj equal
  cases typed with
  | binary sorts leftTyped rightTyped =>
      obtain ⟨grows, realized⟩ := addFormula_spec leftTyped wellFormed leftAdded
      have negated : middle.Admissible middle.gates.size (.not first) :=
        admissible_of_reads (by simpa [Gate.reads] using realized.lt) (by simp) (by simp)
      have between : middle.Extends
            (if op = .implies then middle.push (.not first) else (middle, first)).1 ∧
          (if op = .implies then middle.push (.not first) else (middle, first)).1.WellFormed := by
        split
        · exact ⟨middle.extends_push _, grows.wellFormed.push negated⟩
        · exact ⟨.refl middle, grows.wellFormed⟩
      have rightGrows := (addFormula_spec rightTyped between.2 rightAdded).1
      have extended (gate : Gate) : last.Extends
          ((if op = .sub then last.push (.neg second) else (last, second)).1.push gate).1 := by
        split
        · exact (last.extends_push _).trans (extends_push _ _)
        · exact last.extends_push _
      exact ⟨_, _, middle, first, last, second, ⟨leftTyped, leftAdded,
        (between.1.trans rightGrows.extended).trans (extended _)⟩, rightTyped, between.2,
        rightAdded, extended _⟩

private theorem addIte_steps {condition consequent alternative : Formula} {root : Nat}
    {sort : ValueSort} (typed : (Formula.ite condition consequent alternative).HasSort sort)
    (wellFormed : circuit.WellFormed)
    (added : addFormula (.ite condition consequent alternative) circuit = .ok (larger, root)) :
    ∃ middle first further second last third,
      (condition.HasSort .bool ∧ addFormula condition circuit = .ok (middle, first) ∧
        middle.Extends larger) ∧
      (consequent.HasSort sort ∧ middle.WellFormed ∧
        addFormula consequent middle = .ok (further, second) ∧ further.Extends larger) ∧
      alternative.HasSort sort ∧ further.WellFormed ∧
        addFormula alternative further = .ok (last, third) ∧ last.Extends larger := by
  simp only [addFormula, Outcome.bind_eq_ok_iff, Outcome.pure_eq_ok_iff, Prod.exists] at added
  obtain ⟨middle, first, conditionAdded, further, second, consequentAdded, last, third,
    alternativeAdded, equal⟩ := added
  obtain ⟨rfl, rfl⟩ := Prod.mk.inj equal
  cases typed with
  | ite conditionTyped consequentTyped alternativeTyped =>
      have grows := (addFormula_spec conditionTyped wellFormed conditionAdded).1
      have grows' := (addFormula_spec consequentTyped grows.wellFormed consequentAdded).1
      have grows'' := (addFormula_spec alternativeTyped grows'.wellFormed alternativeAdded).1
      have extended := last.extends_push (.choose first second third)
      have extended' := grows''.extended.trans extended
      exact ⟨middle, first, further, second, last, third,
        ⟨conditionTyped, conditionAdded, grows'.extended.trans extended'⟩,
        ⟨consequentTyped, grows.wellFormed, consequentAdded, extended'⟩,
        alternativeTyped, grows'.wellFormed, alternativeAdded, extended⟩

private theorem addAll_append {front back : List Formula} {gates : List Nat}
    (added : addAll (front ++ back) circuit = .ok (larger, gates)) :
    ∃ middle first second, addAll front circuit = .ok (middle, first) ∧
      addAll back middle = .ok (larger, second) := by
  induction front generalizing circuit gates with
  | nil => exact ⟨circuit, [], gates, rfl, added⟩
  | cons head rest induction =>
      simp only [List.cons_append, addAll, Outcome.bind_eq_ok_iff, Outcome.pure_eq_ok_iff,
        Prod.exists, Prod.mk.injEq] at added
      obtain ⟨next, gate, headAdded, larger, later, restAdded, rfl, rfl⟩ := added
      obtain ⟨middle, first, second, frontAdded, backAdded⟩ := induction restAdded
      exact ⟨middle, gate :: first, second, by simp [addAll, headAdded, frontAdded], backAdded⟩

private theorem addNary_steps {op : NaryOp} {operand : Formula} {front back : List Formula}
    {root : Nat} {sort : ValueSort}
    (typed : (Formula.nary op (front ++ operand :: back)).HasSort sort)
    (wellFormed : circuit.WellFormed)
    (added : addFormula (.nary op (front ++ operand :: back)) circuit = .ok (larger, root)) :
    ∃ middle gates next own, addAll front circuit = .ok (middle, gates) ∧
      operand.HasSort sort ∧ middle.WellFormed ∧
      addFormula operand middle = .ok (next, own) ∧ next.Extends larger := by
  obtain ⟨-, each⟩ := (Formula.hasSort_nary_iff _ _ _).mp typed
  obtain ⟨ofFront, ofRest⟩ := List.forall_mem_append.mp each
  obtain ⟨ofOperand, ofBack⟩ := List.forall_mem_cons.mp ofRest
  simp only [addFormula, Outcome.bind_eq_ok_iff, Outcome.pure_eq_ok_iff, Prod.exists] at added
  obtain ⟨last, below, operandsAdded, equal⟩ := added
  obtain ⟨rfl, rfl⟩ := Prod.mk.inj equal
  obtain ⟨middle, gates, later, frontAdded, restAdded⟩ := addAll_append operandsAdded
  simp only [addAll, Outcome.bind_eq_ok_iff, Outcome.pure_eq_ok_iff, Prod.exists,
    Prod.mk.injEq] at restAdded
  obtain ⟨next, own, operandAdded, _, _, backAdded, rfl, rfl⟩ := restAdded
  have frontGrows := (addAll_spec (fun formula member _ _ _ => addFormula_spec
    (ofFront formula member)) wellFormed frontAdded).1
  have operandGrows := (addFormula_spec ofOperand frontGrows.wellFormed operandAdded).1
  have backGrows := (addAll_spec (fun formula member _ _ _ => addFormula_spec
    (ofBack formula member)) operandGrows.wellFormed backAdded).1
  exact ⟨middle, gates, next, own, frontAdded, ofOperand, frontGrows.wellFormed, operandAdded,
    backGrows.extended.trans (extends_push _ _)⟩

theorem AddedWithin.exists_gate (within : AddedWithin part before formula circuit)
    {sort : ValueSort} (typed : formula.HasSort sort) (wellFormed : circuit.WellFormed)
    {root : Nat} (added : addFormula formula circuit = .ok (larger, root)) :
    ∃ gate, larger.GateOf part before gate := by
  -- Adding is a function, so the circuits that the relation passes through are
  -- those of the given run.
  induction within generalizing larger root sort with
  | here =>
      obtain ⟨-, realized⟩ := addFormula_spec typed wellFormed added
      exact ⟨root, ⟨sort, typed⟩, ⟨larger, added⟩, realized⟩
  | @unary op operand circuit _ operandCase =>
      obtain ⟨_, operandTyped⟩ : ∃ sort, operand.HasSort sort := by
        cases typed with
        | prime typed | not typed | neg typed => exact ⟨_, typed⟩
      cases op with
      | prime => simp [addFormula] at added
      | not | neg =>
          simp only [addFormula, Outcome.bind_eq_ok_iff, Outcome.pure_eq_ok_iff,
            Prod.exists] at added
          obtain ⟨middle, below, operandAdded, equal⟩ := added
          obtain ⟨rfl, rfl⟩ := Prod.mk.inj equal
          obtain ⟨gate, gateOf⟩ := operandCase operandTyped wellFormed operandAdded
          exact ⟨gate, gateOf.extend (middle.extends_push _)⟩
  | left _ leftCase =>
      obtain ⟨_, _, middle, first, last, second, ⟨leftTyped, leftAdded, extended⟩, -⟩ :=
        addBinary_steps typed wellFormed added
      obtain ⟨gate, gateOf⟩ := leftCase leftTyped wellFormed leftAdded
      exact ⟨gate, gateOf.extend extended⟩
  | right leftAdded' _ rightCase =>
      obtain ⟨_, _, middle, first, last, second, ⟨-, leftAdded, -⟩, rightTyped, between,
        rightAdded, extended⟩ := addBinary_steps typed wellFormed added
      obtain ⟨rfl, rfl⟩ := Prod.mk.inj (Except.ok.inj (leftAdded.symm.trans leftAdded'))
      obtain ⟨gate, gateOf⟩ := rightCase rightTyped between rightAdded
      exact ⟨gate, gateOf.extend extended⟩
  | operand frontAdded' _ operandCase =>
      obtain ⟨middle, gates, next, own, frontAdded, operandTyped, between, operandAdded,
        extended⟩ := addNary_steps typed wellFormed added
      obtain ⟨rfl, rfl⟩ := Prod.mk.inj (Except.ok.inj (frontAdded.symm.trans frontAdded'))
      obtain ⟨gate, gateOf⟩ := operandCase operandTyped between operandAdded
      exact ⟨gate, gateOf.extend extended⟩
  | condition _ conditionCase =>
      obtain ⟨middle, first, further, second, last, third,
        ⟨conditionTyped, conditionAdded, extended⟩, -⟩ := addIte_steps typed wellFormed added
      obtain ⟨gate, gateOf⟩ := conditionCase conditionTyped wellFormed conditionAdded
      exact ⟨gate, gateOf.extend extended⟩
  | consequent conditionAdded' _ consequentCase =>
      obtain ⟨middle, first, further, second, last, third, ⟨-, conditionAdded, -⟩,
        ⟨consequentTyped, between, consequentAdded, extended⟩, -⟩ :=
        addIte_steps typed wellFormed added
      obtain ⟨rfl, rfl⟩ := Prod.mk.inj (Except.ok.inj (conditionAdded.symm.trans conditionAdded'))
      obtain ⟨gate, gateOf⟩ := consequentCase consequentTyped between consequentAdded
      exact ⟨gate, gateOf.extend extended⟩
  | alternative conditionAdded' consequentAdded' _ alternativeCase =>
      obtain ⟨middle, first, further, second, last, third, ⟨-, conditionAdded, -⟩,
        ⟨-, -, consequentAdded, -⟩, alternativeTyped, between, alternativeAdded, extended⟩ :=
        addIte_steps typed wellFormed added
      obtain ⟨rfl, rfl⟩ := Prod.mk.inj (Except.ok.inj (conditionAdded.symm.trans conditionAdded'))
      obtain ⟨rfl, rfl⟩ :=
        Prod.mk.inj (Except.ok.inj (consequentAdded.symm.trans consequentAdded'))
      obtain ⟨gate, gateOf⟩ := alternativeCase alternativeTyped between alternativeAdded
      exact ⟨gate, gateOf.extend extended⟩

/-! ## Values and bounds -/

/-- The valuation gives every input a value of its sort, within the box. -/
def Encloses (circuit : Circuit) (box : Box) (valuation : Valuation) : Prop :=
  ∀ (index : Nat) (input : Input), circuit.inputs[index]? = some input →
    ∃ value, valuation.get? input.symbol = some value ∧
      value.sort = input.symbol.domain.sort ∧ value.number ∈ box.getD index .full

variable {box : Box} {valuation : Valuation}

instance {entries : Array α} {meets : Nat → α → Prop}
    [∀ index entry, Decidable (meets index entry)] :
    Decidable (∀ (index : Nat) (entry : α), entries[index]? = some entry → meets index entry) :=
  decidable_of_iff (∀ index : Fin entries.size, meets index entries[index]) (by
    constructor
    · intro each index entry found
      obtain ⟨less, rfl⟩ := Array.getElem?_eq_some_iff.mp found
      exact each ⟨index, less⟩
    · intro each index
      exact each index _ (by simp))

instance (interval : Interval) (value : Int) : Decidable (value ∈ interval) :=
  inferInstanceAs (Decidable (_ ∧ _))

instance (outer : Box) : Decidable (box.Refines outer) :=
  decidable_of_iff (box.size = outer.size ∧
    (∀ (index : Nat) (interval : Interval), box[index]? = some interval →
      interval.lo ≤ interval.hi) ∧
    ∀ (index : Nat) (held : Interval), outer[index]? = some held → ∀ interval ∈ box[index]?,
      held.lo ≤ interval.lo ∧ interval.hi ≤ held.hi) (by
    constructor
    · rintro ⟨size, ordered, within⟩
      exact ⟨size, ordered, fun index held interval outside => within index held outside interval⟩
    · intro refines
      exact ⟨refines.size, refines.ordered, fun index held outside interval =>
        refines.within index held interval outside⟩)

instance : Decidable (circuit.IsBox box) := inferInstanceAs (Decidable (box.Refines _))

instance : Decidable (circuit.Encloses box valuation) :=
  decidable_of_iff (∀ (index : Nat) (input : Input), circuit.inputs[index]? = some input →
    ((valuation.get? input.symbol).any fun value =>
      decide (value.sort = input.symbol.domain.sort ∧ value.number ∈ box.getD index .full)) = true)
    (by simp only [Encloses, Option.any_eq_true, decide_eq_true_eq])

theorem Encloses.inside (encloses : circuit.Encloses box valuation) :
    circuit.Inside box valuation.number := by
  intro index input held
  obtain ⟨value, bound, -, member⟩ := encloses index input held
  rw [Valuation.number_of_get? bound]
  exact member

theorem Encloses.suits (encloses : circuit.Encloses box valuation) {gate : Nat}
    (realized : circuit.Realizes formula gate) : valuation.Suits formula := by
  intro symbol mentions
  obtain ⟨index, input, held, rfl⟩ := realized.exists_input mentions
  obtain ⟨value, bound, sort, -⟩ := encloses index input held
  exact ⟨value, bound, sort⟩

theorem Realizes.number_mem {sort : ValueSort} {gate : Nat} {value : Value}
    (realized : circuit.Realizes formula gate) (typed : formula.HasSort sort)
    (wellFormed : circuit.WellFormed) (isBox : circuit.IsBox box)
    (encloses : circuit.Encloses box valuation)
    (evaluated : formula.evaluate valuation = .ok value) :
    value.number ∈ (circuit.enclose box).interval gate ∧
      ((∀ interval ∈ box, interval.isPoint = true) →
        (circuit.enclose box).interval gate = .point value.number) := by
  have derived := (formula.evaluate_eq_ok_iff value).mp evaluated
  have suits := encloses.suits realized
  constructor
  · exact (realized.yields typed suits derived).mem_enclose wellFormed isBox encloses.inside
  · intro points
    refine realized.interval_eq_point wellFormed isBox encloses.inside typed ⟨suits, ?_⟩ derived
    intro index input held _
    have less : index < box.size := by
      rw [isBox.size]
      simpa [wholeBox] using (Array.getElem?_eq_some_iff.mp held).1
    have found := Array.getElem?_eq_getElem less
    rw [Array.getD_eq_getD_getElem?, found]
    exact points _ (Array.mem_of_getElem? found)

end Circuit

namespace Problem

variable {formulas : List Formula} {problem : Problem} {part : Formula} {before : Circuit}

/-- While the formulas are compiled, the part is added to `before`. -/
def AddedWithin (part : Formula) (before : Circuit) (formulas : List Formula) : Prop :=
  ∃ front conjunct back started, formulas.flatMap Formula.conjuncts = front ++ conjunct :: back ∧
    front.foldlM addConjunct empty = .ok started ∧
    Circuit.AddedWithin part before conjunct started.circuit

private theorem extends_foldlM {conjuncts : List Formula} {result : Problem}
    (typed : ∀ conjunct ∈ conjuncts, conjunct.HasSort .bool)
    (wellFormed : problem.circuit.WellFormed)
    (folded : conjuncts.foldlM addConjunct problem = .ok result) :
    problem.circuit.Extends result.circuit := by
  induction conjuncts generalizing problem with
  | nil =>
      simp only [List.foldlM_nil, Outcome.pure_eq_ok_iff] at folded
      exact folded ▸ .refl _
  | cons conjunct rest induction =>
      simp only [List.foldlM_cons, addConjunct, Outcome.bind_eq_ok_iff, Outcome.pure_eq_ok_iff,
        Prod.exists] at folded
      obtain ⟨next, ⟨circuit, gate, added, rfl⟩, continued⟩ := folded
      obtain ⟨first, later⟩ := List.forall_mem_cons.mp typed
      have grows := (Circuit.addFormula_spec first wellFormed added).1
      exact grows.extended.trans (induction later grows.wellFormed continued)

theorem AddedWithin.exists_gate (within : AddedWithin part before formulas)
    (boolean : ∀ formula ∈ formulas, formula.IsBoolean)
    (compiled : ofFormulas formulas = .ok problem) :
    ∃ gate, problem.circuit.GateOf part before gate := by
  obtain ⟨front, conjunct, back, started, conjuncts, begun, within⟩ := within
  have typed : ∀ conjunct ∈ formulas.flatMap Formula.conjuncts, conjunct.HasSort .bool := by
    intro conjunct member
    obtain ⟨formula, inFormulas, inConjuncts⟩ := List.mem_flatMap.mp member
    exact hasSort_conjuncts (boolean formula inFormulas) inConjuncts
  rw [conjuncts] at typed
  obtain ⟨ofFront, ofRest⟩ := List.forall_mem_append.mp typed
  obtain ⟨ofConjunct, ofBack⟩ := List.forall_mem_cons.mp ofRest
  have wellFormed := (represents_empty.foldlM ofFront begun).wellFormed
  simp only [ofFormulas, conjuncts, List.foldlM_append, List.foldlM_cons, begun, addConjunct,
    Outcome.ok_bind, Outcome.bind_eq_ok_iff, Outcome.pure_eq_ok_iff, Prod.exists] at compiled
  obtain ⟨next, ⟨circuit, root, added, rfl⟩, continued⟩ := compiled
  have grows := (Circuit.addFormula_spec ofConjunct wellFormed added).1
  obtain ⟨gate, gateOf⟩ := within.exists_gate ofConjunct wellFormed added
  exact ⟨gate, gateOf.extend (extends_foldlM ofBack grows.wellFormed continued)⟩

theorem exists_addedWithin (bounded : ∀ formula ∈ formulas, formula.Bounded)
    {formula conjunct : Formula} (member : formula ∈ formulas)
    (inConjuncts : conjunct ∈ formula.conjuncts) (occurs : Formula.Occurs part conjunct) :
    ∃ before, AddedWithin part before formulas := by
  obtain ⟨front, back, conjuncts⟩ :=
    List.append_of_mem (List.mem_flatMap.mpr ⟨formula, member, inConjuncts⟩)
  have ofFront : ∀ other ∈ front, other.Bounded := by
    intro other inFront
    have inAll : other ∈ formulas.flatMap Formula.conjuncts :=
      conjuncts ▸ List.mem_append_left _ inFront
    obtain ⟨formula', inFormulas, inConjuncts'⟩ := List.mem_flatMap.mp inAll
    exact (bounded formula' inFormulas).conjunct inConjuncts'
  obtain ⟨started, begun⟩ := exists_foldlM ofFront empty
  obtain ⟨before, within⟩ := Circuit.exists_addedWithin occurs
    ((bounded formula member).conjunct inConjuncts) started.circuit
  exact ⟨before, front, conjunct, back, started, conjuncts, begun, within⟩

/-- Boolean formulas without primes, over finite domains with values, can be
compiled. Gates read earlier gates only, each symbol has one gate, and so has each
part wherever it occurs. Over a box, the bounds of the gate hold the value of the
part, if it has one; if the box is a single point, they are that value. -/
theorem encloses_parts (askable : ∀ formula ∈ formulas, formula.Askable) :
    ∃ problem, ofFormulas formulas = .ok problem ∧
      (∀ (position : Nat) (gate : Gate), problem.circuit.gates[position]? = some gate →
        ∀ operand ∈ gate.reads, operand < position) ∧
      (∀ formula ∈ formulas, ∀ symbol, formula.Mentions symbol →
        ∃ gate, problem.circuit.StandsFor gate symbol ∧
          ∀ other, problem.circuit.StandsFor other symbol → other = gate) ∧
      (∀ formula ∈ formulas, ∀ conjunct ∈ formula.conjuncts, ∀ part,
        Formula.Occurs part conjunct → ∃ before, AddedWithin part before formulas) ∧
      ∀ (part : Formula) (before : Circuit), AddedWithin part before formulas →
        ∃ after gate, Circuit.addFormula part before = .ok (after, gate) ∧
          gate < problem.circuit.gates.size ∧
          ∀ (box : Box) (valuation : Valuation) (value : Value),
            problem.circuit.IsBox box → problem.circuit.Encloses box valuation →
            part.evaluate valuation = .ok value →
            value.number ∈ (problem.circuit.enclose box).interval gate ∧
              ((∀ interval ∈ box, interval.isPoint = true) →
                (problem.circuit.enclose box).interval gate = .point value.number) := by
  have bounded : ∀ formula ∈ formulas, formula.Bounded :=
    fun formula member => (askable formula member).toCompilable.bounded
  have boolean : ∀ formula ∈ formulas, formula.IsBoolean :=
    fun formula member => (formula.inferSort_eq_ok_iff .bool).mpr (askable formula member).typed
  obtain ⟨problem, compiled⟩ := exists_ofFormulas bounded
  have represents := represents_ofFormulas boolean compiled
  refine ⟨problem, compiled, ?_, ?_, ?_, ?_⟩
  · intro position gate found
    exact (represents.wellFormed.admissible position gate found).earlier
  · intro formula member symbol mentions
    obtain ⟨index, input, held, rfl⟩ := represents.exists_input member mentions
    have stands : problem.circuit.StandsFor input.gate input.symbol :=
      ⟨index, input, represents.wellFormed.placed index input held, held, rfl⟩
    exact ⟨input.gate, stands, fun other => stands.unique represents.wellFormed⟩
  · intro formula member conjunct inConjuncts part occurs
    exact exists_addedWithin bounded member inConjuncts occurs
  · intro part before within
    obtain ⟨gate, ⟨sort, typed⟩, ⟨after, added⟩, realized⟩ := within.exists_gate boolean compiled
    refine ⟨after, gate, added, realized.lt, ?_⟩
    intro box valuation value isBox encloses evaluated
    exact realized.number_mem typed represents.wellFormed isBox encloses evaluated

private def digit : Symbol := .current ⟨0, "x", .range 0 7⟩

private def halved : Formula :=
  .binary .div (.binary .sub (.symbol digit) (.int 1)) (.int 2)

private def implication : Formula :=
  .binary .implies (.binary .geq halved (.int 1)) (.binary .neq (.symbol digit) (.int 2))

private def five : Valuation := .ofList [(digit, .int 5)]

private theorem askable_implication : implication.Askable where
  primeFree := by simp [implication, halved]
  proper symbol mentions := by
    obtain rfl : symbol = digit := by simpa [implication, halved] using mentions
    decide
  typed := (implication.inferSort_eq_ok_iff .bool).mp rfl

theorem encloses_parts_implication :
    implication.Askable ∧ ∃ problem before after gate,
      ofFormulas [implication] = .ok problem ∧ AddedWithin halved before [implication] ∧
      Circuit.addFormula halved before = .ok (after, gate) ∧
      2 ∈ (problem.circuit.enclose #[⟨4, 6⟩]).interval gate ∧
      (problem.circuit.enclose #[.point 5]).interval gate = .point 2 := by
  obtain ⟨problem, compiled, -, -, parts, encloses⟩ :=
    encloses_parts (List.forall_mem_singleton.mpr askable_implication)
  obtain ⟨before, added⟩ := parts implication List.mem_cons_self implication
    List.mem_cons_self halved (.within List.mem_cons_self (.within List.mem_cons_self .here))
  obtain ⟨after, gate, halvedAdded, -, bounds⟩ := encloses halved before added
  have evaluated : halved.evaluate five = .ok (.int 2) := by rfl
  obtain ⟨_, same, seen⟩ : ∃ problem, ofFormulas [implication] = .ok problem ∧
      decide ((problem.circuit.IsBox #[⟨4, 6⟩] ∧ problem.circuit.Encloses #[⟨4, 6⟩] five) ∧
        problem.circuit.IsBox #[.point 5] ∧ problem.circuit.Encloses #[.point 5] five) = true :=
    Outcome.any_toOption_iff.mp (by decide +kernel)
  obtain rfl := Except.ok.inj (compiled.symm.trans same)
  obtain ⟨⟨isBox, inside⟩, isPoint, atPoint⟩ := of_decide_eq_true seen
  have wide := (bounds _ five _ isBox inside evaluated).1
  have exact := (bounds _ five _ isPoint atPoint evaluated).2 (by simp)
  exact ⟨askable_implication, problem, before, after, gate, compiled, added, halvedAdded, wide,
    exact⟩

end Problem

end SymbolicSafety
