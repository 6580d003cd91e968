import SymbolicSafety.Proofs.Meaning

namespace SymbolicSafety

/-! The simplifying builders for conjunction, disjunction and negation mean what
they say: dropping neutral operands, flattening and deciding early change
neither the truth value nor the symbols it depends on. -/

namespace Formula

variable {valuation : Valuation} {op : NaryOp} {neutral : Bool}

/-! ## Conjunction and disjunction as one -/

/-- Conjunction has the neutral value true, disjunction false. -/
def Neutral (op : NaryOp) (neutral : Bool) : Prop :=
  (op = .and ∧ neutral = true) ∨ (op = .or ∧ neutral = false)

def AllNeutral (valuation : Valuation) (neutral : Bool) (operands : List Formula) : Prop :=
  ∀ operand ∈ operands, operand.EvaluatesTo valuation (.bool neutral)

/-- Some operand has the absorbing value, and all before it the neutral one. -/
def Settled (valuation : Valuation) (neutral : Bool) (operands : List Formula) : Prop :=
  ∃ before operand after, operands = before ++ operand :: after ∧
    AllNeutral valuation neutral before ∧ operand.EvaluatesTo valuation (.bool !neutral)

theorem evaluatesTo_nary_iff (kind : Neutral op neutral) (operands : List Formula)
    (value : Value) :
    (Formula.nary op operands).EvaluatesTo valuation value ↔
      (value = .bool neutral ∧ AllNeutral valuation neutral operands) ∨
        (value = .bool !neutral ∧ Settled valuation neutral operands) := by
  rcases kind with ⟨rfl, rfl⟩ | ⟨rfl, rfl⟩
  · constructor
    · intro evaluated
      cases evaluated with
      | all each => exact .inl ⟨rfl, each⟩
      | notAll split earlier last => exact .inr ⟨rfl, _, _, _, split, earlier, last⟩
    · rintro (⟨rfl, each⟩ | ⟨rfl, before, operand, after, split, earlier, last⟩)
      · exact .all each
      · exact .notAll split earlier last
  · constructor
    · intro evaluated
      cases evaluated with
      | any split earlier last => exact .inr ⟨rfl, _, _, _, split, earlier, last⟩
      | none each => exact .inl ⟨rfl, each⟩
    · rintro (⟨rfl, each⟩ | ⟨rfl, before, operand, after, split, earlier, last⟩)
      · exact .none each
      · exact .any split earlier last

theorem settled_append_iff (first second : List Formula) :
    Settled valuation neutral (first ++ second) ↔
      Settled valuation neutral first ∨
        (AllNeutral valuation neutral first ∧ Settled valuation neutral second) := by
  constructor
  · rintro ⟨before, operand, after, split, earlier, last⟩
    rcases List.append_eq_append_iff.mp split with
      ⟨middle, rfl, rest⟩ | ⟨middle, rfl, rest⟩
    · refine .inr ⟨fun formula member => earlier formula (List.mem_append_left _ member),
        middle, operand, after, rest, fun formula member => ?_, last⟩
      exact earlier formula (List.mem_append_right _ member)
    · cases middle with
      | nil =>
          simp only [List.nil_append] at rest
          refine .inr ⟨by simpa using earlier, [], operand, after, rest.symm, by simp [AllNeutral],
            last⟩
      | cons head middle =>
          simp only [List.cons_append, List.cons.injEq] at rest
          obtain ⟨rfl, rfl⟩ := rest
          exact .inl ⟨before, operand, middle, rfl, earlier, last⟩
  · rintro (⟨before, operand, after, rfl, earlier, last⟩ |
      ⟨each, before, operand, after, rfl, earlier, last⟩)
    · exact ⟨before, operand, after ++ second, by simp, earlier, last⟩
    · refine ⟨first ++ before, operand, after, by simp, fun formula member => ?_, last⟩
      rcases List.mem_append.mp member with inFirst | inBefore
      · exact each formula inFirst
      · exact earlier formula inBefore

theorem settled_of_mem {operands : List Formula} {operand : Formula}
    (decided : ∀ operand ∈ operands, ∃ holds, operand.EvaluatesTo valuation (.bool holds))
    (member : operand ∈ operands) (absorbing : operand.EvaluatesTo valuation (.bool !neutral)) :
    Settled valuation neutral operands := by
  induction operands with
  | nil => simp at member
  | cons head rest induction =>
      rw [List.forall_mem_cons] at decided
      obtain ⟨holds, evaluated⟩ := decided.1
      by_cases isNeutral : holds = neutral
      · subst isNeutral
        refine (settled_append_iff [head] rest).mpr (.inr ⟨by simpa [AllNeutral] using evaluated,
          ?_⟩)
        refine induction decided.2 ?_
        rcases List.mem_cons.mp member with rfl | member
        · have same := evaluated.unique absorbing
          simp at same
        · exact member
      · have isAbsorbing : holds = !neutral := by cases holds <;> cases neutral <;> simp_all
        exact ⟨[], head, rest, rfl, by simp [AllNeutral], isAbsorbing ▸ evaluated⟩

/-! ## Flattening -/

private theorem allNeutral_spread_iff (kind : Neutral op neutral) {operand : Formula}
    (other : operand ≠ .bool !neutral) :
    AllNeutral valuation neutral (spread op neutral operand) ↔
      operand.EvaluatesTo valuation (.bool neutral) := by
  unfold spread
  split
  next value =>
    have isNeutral : value = neutral := by cases value <;> cases neutral <;> simp_all
    subst isNeutral
    simpa [AllNeutral] using EvaluatesTo.bool value
  next op' operands =>
    split
    next same =>
      subst same
      rw [evaluatesTo_nary_iff kind]
      simp
    next => simp [AllNeutral]
  next => simp [AllNeutral]

private theorem settled_singleton_iff (operand : Formula) :
    Settled valuation neutral [operand] ↔ operand.EvaluatesTo valuation (.bool !neutral) := by
  constructor
  · rintro ⟨before, formula, after, split, -, last⟩
    obtain ⟨-, rfl⟩ : before = [] ∧ operand = formula := by
      cases before <;> simp_all
    exact last
  · exact fun last => ⟨[], operand, [], rfl, by simp [AllNeutral], last⟩

private theorem settled_spread_iff (kind : Neutral op neutral) {operand : Formula}
    (other : operand ≠ .bool !neutral) :
    Settled valuation neutral (spread op neutral operand) ↔
      operand.EvaluatesTo valuation (.bool !neutral) := by
  unfold spread
  split
  next value =>
    have isNeutral : value = neutral := by cases value <;> cases neutral <;> simp_all
    subst isNeutral
    rw [if_pos rfl]
    constructor
    · rintro ⟨before, formula, after, split, -⟩
      simp at split
    · intro evaluated
      have same := evaluated.unique (.bool value)
      simp at same
  next op' operands =>
    split
    next same =>
      subst same
      rw [evaluatesTo_nary_iff kind]
      simp
    next => exact settled_singleton_iff _
  next => exact settled_singleton_iff _

private theorem allNeutral_flatMap_iff (kind : Neutral op neutral) {operands : List Formula}
    (other : .bool (!neutral) ∉ operands) :
    AllNeutral valuation neutral (operands.flatMap (spread op neutral)) ↔
      AllNeutral valuation neutral operands := by
  have each : ∀ operand ∈ operands,
      (AllNeutral valuation neutral (spread op neutral operand) ↔
        operand.EvaluatesTo valuation (.bool neutral)) :=
    fun operand member => allNeutral_spread_iff kind fun equal => other (equal ▸ member)
  simp only [AllNeutral, List.mem_flatMap] at each ⊢
  constructor
  · intro all operand member
    exact (each operand member).mp fun part inSpread => all part ⟨operand, member, inSpread⟩
  · rintro all part ⟨operand, member, inSpread⟩
    exact (each operand member).mpr (all operand member) part inSpread

private theorem settled_flatMap_iff (kind : Neutral op neutral) {operands : List Formula}
    (other : .bool (!neutral) ∉ operands) :
    Settled valuation neutral (operands.flatMap (spread op neutral)) ↔
      Settled valuation neutral operands := by
  induction operands with
  | nil => simp
  | cons head rest induction =>
      simp only [List.mem_cons, not_or] at other
      have single : [head] ++ rest = head :: rest := rfl
      rw [List.flatMap_cons, settled_append_iff, settled_spread_iff kind (Ne.symm other.1),
        allNeutral_spread_iff kind (Ne.symm other.1), induction other.2, ← single,
        settled_append_iff, settled_singleton_iff]
      simp [AllNeutral]

/-! ## The builders -/

/-- Unless an absorbing literal decides it, a junction has the value that its
operands make up. -/
theorem evaluatesTo_junction_iff (kind : Neutral op neutral) {operands : List Formula}
    (other : .bool (!neutral) ∉ operands) (holds : Bool) :
    (junction op neutral operands).EvaluatesTo valuation (.bool holds) ↔
      (holds = neutral ∧ AllNeutral valuation neutral operands) ∨
        ((holds = !neutral) ∧ Settled valuation neutral operands) := by
  have notDecided : ¬ operands.contains (.bool !neutral) = true := by simpa using other
  rw [junction, if_neg notDecided, ← allNeutral_flatMap_iff kind other,
    ← settled_flatMap_iff kind other]
  generalize operands.flatMap (spread op neutral) = parts
  split
  · have unsettled : ¬ Settled valuation neutral [] := by
      rintro ⟨before, operand, after, split, -⟩
      simp at split
    simp only [AllNeutral, List.not_mem_nil, false_implies, implies_true, and_true, unsettled,
      and_false, or_false]
    constructor
    · intro evaluated
      simpa using evaluated.unique (.bool neutral)
    · rintro rfl
      exact .bool holds
  next operand =>
    rw [settled_singleton_iff]
    simp only [AllNeutral, List.forall_mem_singleton]
    by_cases isNeutral : holds = neutral
    · subst isNeutral
      simp
    · have isAbsorbing : holds = !neutral := by cases holds <;> cases neutral <;> simp_all
      subst isAbsorbing
      simp
  next =>
    rw [evaluatesTo_nary_iff kind]
    simp

theorem junction_of_mem {operands : List Formula} (member : .bool (!neutral) ∈ operands) :
    junction op neutral operands = .bool !neutral := by
  rw [junction, if_pos (by simpa using member)]

theorem junction_evaluatesTo_neutral_iff (kind : Neutral op neutral) (operands : List Formula) :
    (junction op neutral operands).EvaluatesTo valuation (.bool neutral) ↔
      AllNeutral valuation neutral operands := by
  by_cases member : .bool (!neutral) ∈ operands
  · rw [junction_of_mem member]
    constructor
    · intro evaluated
      have same := evaluated.unique (.bool !neutral)
      simp at same
    · intro each
      have same := (each _ member).unique (.bool !neutral)
      simp at same
  · rw [evaluatesTo_junction_iff kind member]
    simp

theorem junction_evaluatesTo_of_settled (kind : Neutral op neutral) {operands : List Formula}
    (settled : Settled valuation neutral operands) :
    (junction op neutral operands).EvaluatesTo valuation (.bool !neutral) := by
  by_cases member : .bool (!neutral) ∈ operands
  · rw [junction_of_mem member]
    exact .bool _
  · rw [evaluatesTo_junction_iff kind member]
    exact .inr ⟨rfl, settled⟩

theorem exists_of_junction (kind : Neutral op neutral) {operands : List Formula}
    (evaluated : (junction op neutral operands).EvaluatesTo valuation (.bool !neutral)) :
    ∃ operand ∈ operands, operand.EvaluatesTo valuation (.bool !neutral) := by
  by_cases member : .bool (!neutral) ∈ operands
  · exact ⟨_, member, .bool _⟩
  · rw [evaluatesTo_junction_iff kind member] at evaluated
    rcases evaluated with ⟨same, -⟩ | ⟨-, before, operand, after, rfl, -, last⟩
    · simp at same
    · exact ⟨operand, List.mem_append_right _ List.mem_cons_self, last⟩

/-! Conjunctions and disjunctions whose operands all have truth values. -/

theorem mkAnd_evaluatesTo_true_iff (operands : List Formula) :
    (mkAnd operands).EvaluatesTo valuation (.bool true) ↔
      ∀ operand ∈ operands, operand.EvaluatesTo valuation (.bool true) :=
  junction_evaluatesTo_neutral_iff (.inl ⟨rfl, rfl⟩) operands

theorem mkAnd_evaluatesTo_false {operands : List Formula}
    (decided : ∀ operand ∈ operands, ∃ holds, operand.EvaluatesTo valuation (.bool holds))
    {operand : Formula} (member : operand ∈ operands)
    (fails : operand.EvaluatesTo valuation (.bool false)) :
    (mkAnd operands).EvaluatesTo valuation (.bool false) :=
  junction_evaluatesTo_of_settled (.inl ⟨rfl, rfl⟩) (settled_of_mem decided member fails)

theorem mkAnd_decided {operands : List Formula}
    (decided : ∀ operand ∈ operands, ∃ holds, operand.EvaluatesTo valuation (.bool holds)) :
    ∃ holds, (mkAnd operands).EvaluatesTo valuation (.bool holds) := by
  by_cases fails : ∃ operand ∈ operands, operand.EvaluatesTo valuation (.bool false)
  · obtain ⟨operand, member, failed⟩ := fails
    exact ⟨false, mkAnd_evaluatesTo_false decided member failed⟩
  · refine ⟨true, (mkAnd_evaluatesTo_true_iff operands).mpr fun operand member => ?_⟩
    obtain ⟨holds, evaluated⟩ := decided operand member
    cases holds with
    | true => exact evaluated
    | false => exact absurd ⟨operand, member, evaluated⟩ fails

theorem mkAnd_pair {left right : Formula} {first second : Bool}
    (leftHas : left.EvaluatesTo valuation (.bool first))
    (rightHas : right.EvaluatesTo valuation (.bool second)) :
    (mkAnd [left, right]).EvaluatesTo valuation (.bool (first && second)) := by
  have decided : ∀ operand ∈ [left, right], ∃ holds, operand.EvaluatesTo valuation (.bool holds) :=
    List.forall_mem_cons.mpr ⟨⟨_, leftHas⟩, List.forall_mem_singleton.mpr ⟨_, rightHas⟩⟩
  cases first with
  | false => exact mkAnd_evaluatesTo_false decided List.mem_cons_self leftHas
  | true =>
      cases second with
      | false =>
          exact mkAnd_evaluatesTo_false decided (List.mem_cons_of_mem _ List.mem_cons_self) rightHas
      | true =>
          exact (mkAnd_evaluatesTo_true_iff _).mpr
            (List.forall_mem_cons.mpr ⟨leftHas, List.forall_mem_singleton.mpr rightHas⟩)

theorem mkOr_evaluatesTo_false_iff (operands : List Formula) :
    (mkOr operands).EvaluatesTo valuation (.bool false) ↔
      ∀ operand ∈ operands, operand.EvaluatesTo valuation (.bool false) :=
  junction_evaluatesTo_neutral_iff (.inr ⟨rfl, rfl⟩) operands

theorem mkOr_evaluatesTo_true {operands : List Formula}
    (decided : ∀ operand ∈ operands, ∃ holds, operand.EvaluatesTo valuation (.bool holds))
    {operand : Formula} (member : operand ∈ operands)
    (holds : operand.EvaluatesTo valuation (.bool true)) :
    (mkOr operands).EvaluatesTo valuation (.bool true) :=
  junction_evaluatesTo_of_settled (.inr ⟨rfl, rfl⟩) (settled_of_mem decided member holds)

theorem exists_of_mkOr {operands : List Formula}
    (evaluated : (mkOr operands).EvaluatesTo valuation (.bool true)) :
    ∃ operand ∈ operands, operand.EvaluatesTo valuation (.bool true) :=
  exists_of_junction (.inr ⟨rfl, rfl⟩) evaluated

theorem mkOr_decided {operands : List Formula}
    (decided : ∀ operand ∈ operands, ∃ holds, operand.EvaluatesTo valuation (.bool holds)) :
    ∃ holds, (mkOr operands).EvaluatesTo valuation (.bool holds) := by
  by_cases holds : ∃ operand ∈ operands, operand.EvaluatesTo valuation (.bool true)
  · obtain ⟨operand, member, held⟩ := holds
    exact ⟨true, mkOr_evaluatesTo_true decided member held⟩
  · refine ⟨false, (mkOr_evaluatesTo_false_iff operands).mpr fun operand member => ?_⟩
    obtain ⟨value, evaluated⟩ := decided operand member
    cases value with
    | false => exact evaluated
    | true => exact absurd ⟨operand, member, evaluated⟩ holds

private theorem not_evaluatesTo_iff (formula : Formula) (holds : Bool) :
    (Formula.unary .not formula).EvaluatesTo valuation (.bool holds) ↔
      formula.EvaluatesTo valuation (.bool !holds) := by
  constructor
  · intro evaluated
    generalize outcome : Value.bool holds = value at evaluated
    cases evaluated with
    | not operand =>
        obtain rfl := Value.bool.inj outcome
        simpa using operand
  · intro evaluated
    simpa using evaluated.not

theorem mkNot_evaluatesTo_iff (formula : Formula) (holds : Bool) :
    (mkNot formula).EvaluatesTo valuation (.bool holds) ↔
      formula.EvaluatesTo valuation (.bool !holds) := by
  unfold mkNot
  split
  next value =>
    constructor
    · intro evaluated
      have same : holds = !value := by simpa using evaluated.unique (.bool !value)
      simpa [same] using EvaluatesTo.bool value
    · intro evaluated
      have same : (!holds) = value := by simpa using evaluated.unique (.bool value)
      simpa [← same] using EvaluatesTo.bool holds
  next operand => rw [not_evaluatesTo_iff, Bool.not_not]
  next => exact not_evaluatesTo_iff formula holds

/-! ## Symbols and sorts of the builders -/

private theorem exists_mentions_spread_iff (op : NaryOp) (neutral : Bool) (operand : Formula)
    (symbol : Symbol) :
    (∃ part ∈ spread op neutral operand, part.Mentions symbol) ↔
      operand.Mentions symbol := by
  unfold spread
  split
  · split <;> simp
  · split <;> simp
  · simp

theorem mentions_junction_iff {operands : List Formula} (other : .bool (!neutral) ∉ operands)
    (symbol : Symbol) : (junction op neutral operands).Mentions symbol ↔
      ∃ operand ∈ operands, operand.Mentions symbol := by
  have notDecided : ¬ operands.contains (.bool !neutral) = true := by simpa using other
  have parts : (∃ part ∈ operands.flatMap (spread op neutral), part.Mentions symbol) ↔
      ∃ operand ∈ operands, operand.Mentions symbol := by
    constructor
    · rintro ⟨part, inParts, mentions⟩
      obtain ⟨operand, member, inSpread⟩ := List.mem_flatMap.mp inParts
      exact ⟨operand, member,
        (exists_mentions_spread_iff op neutral operand symbol).mp ⟨part, inSpread, mentions⟩⟩
    · rintro ⟨operand, member, mentions⟩
      obtain ⟨part, inSpread, inPart⟩ :=
        (exists_mentions_spread_iff op neutral operand symbol).mpr mentions
      exact ⟨part, List.mem_flatMap.mpr ⟨operand, member, inSpread⟩, inPart⟩
  rw [← parts, junction, if_neg notDecided]
  split <;> simp_all

theorem mentions_of_junction {operands : List Formula} {symbol : Symbol}
    (mentions : (junction op neutral operands).Mentions symbol) :
    ∃ operand ∈ operands, operand.Mentions symbol := by
  by_cases member : .bool (!neutral) ∈ operands
  · simp [junction_of_mem member] at mentions
  · exact (mentions_junction_iff member symbol).mp mentions

theorem mkNot_mentions_iff (formula : Formula) (symbol : Symbol) :
    (mkNot formula).Mentions symbol ↔ formula.Mentions symbol := by
  unfold mkNot
  split <;> simp

private theorem junction_induct {motive : Formula → Prop} {operands : List Formula}
    (bool : ∀ value, motive (.bool value))
    (nary : ∀ parts, motive (.nary op parts) ↔ ∀ part ∈ parts, motive part)
    (each : ∀ operand ∈ operands, motive operand) : motive (junction op neutral operands) := by
  have parts : ∀ part ∈ operands.flatMap (spread op neutral), motive part := by
    intro part member
    obtain ⟨operand, inOperands, inSpread⟩ := List.mem_flatMap.mp member
    have held := each operand inOperands
    unfold spread at inSpread
    split at inSpread
    · split at inSpread
      · simp at inSpread
      · exact List.mem_singleton.mp inSpread ▸ held
    next op' nested =>
      split at inSpread
      next same => exact (nary nested).mp (same ▸ held) part inSpread
      next => exact List.mem_singleton.mp inSpread ▸ held
    · exact List.mem_singleton.mp inSpread ▸ held
  unfold junction
  split
  · exact bool _
  · split
    · exact bool _
    next single => exact parts _ (single ▸ List.mem_singleton_self _)
    · exact (nary _).mpr parts

theorem HasSort.junction {operands : List Formula} (kind : op.sort = .bool)
    (each : ∀ operand ∈ operands, operand.HasSort .bool) :
    (Formula.junction op neutral operands).HasSort .bool :=
  junction_induct .bool (fun parts => by simp [kind]) each

theorem PrimeFree.junction {operands : List Formula}
    (each : ∀ operand ∈ operands, operand.PrimeFree) :
    (Formula.junction op neutral operands).PrimeFree :=
  junction_induct primeFree_bool (primeFree_nary _) each

theorem HasSort.mkNot {formula : Formula} (typed : formula.HasSort .bool) :
    (Formula.mkNot formula).HasSort .bool := by
  unfold Formula.mkNot
  split
  · exact .bool _
  · cases typed with
    | not typed => exact typed
  · exact .not typed

theorem PrimeFree.mkNot {formula : Formula} (free : formula.PrimeFree) :
    (Formula.mkNot formula).PrimeFree := by
  unfold Formula.mkNot
  split
  · exact primeFree_bool _
  · exact free.child (by simp [children])
  · simpa using free

end Formula

end SymbolicSafety
