import SymbolicSafety.Proofs.Lowering

namespace SymbolicSafety

/-! Lowering keeps the meaning of statements. The constraints hold under an
assignment exactly if the statement can take the values of the versions at the
start to those of the versions that it reaches. -/

namespace Assignment

variable {assignment : Assignment} {indexing : Indexing} {own : Variable → Prop}

def storeAt (assignment : Assignment) (indexing : Indexing) : Store :=
  fun var => assignment (.version var (indexing.get var))

def LegalFor (own : Variable → Prop) (assignment : Assignment) : Prop :=
  ∀ symbol : Symbol, own symbol.var → symbol.var.domain.contains (assignment symbol) = true

theorem storeAt_next {next : Indexing} {var : Variable}
    (advanced : indexing.next? var = some next) :
    assignment.storeAt next =
      (assignment.storeAt indexing).set var (assignment (.version var (next.get var))) := by
  funext other
  simp only [storeAt, Store.set]
  split
  next same => rw [same]
  next different =>
    rw [Indexing.get_next_of_ne advanced different]

def set (assignment : Assignment) (name : Symbol) (value : Value) : Assignment :=
  fun symbol => if symbol = name then value else assignment symbol

theorem LegalFor.set (legal : assignment.LegalFor own) (name : Symbol) {value : Value}
    (inDomain : name.var.domain.contains value = true) :
    (assignment.set name value).LegalFor own := by
  intro symbol owned
  simp only [Assignment.set]
  split
  next same => rw [same]; exact inDomain
  next => exact legal symbol owned

/-- Versions after those of the indexing have the values of these. -/
def settled (assignment : Assignment) (indexing : Indexing) : Assignment
  | .current var => assignment (.current var)
  | .version var index => assignment (.version var
      (if index.toNat ≤ (indexing.get var).toNat then index else indexing.get var))

theorem LegalFor.settled (legal : assignment.LegalFor own) (indexing : Indexing) :
    (assignment.settled indexing).LegalFor own := by
  intro symbol owned
  cases symbol with
  | current var => exact legal (.current var) owned
  | version var index =>
      simp only [Assignment.settled]
      split
      · exact legal (.version var index) owned
      · exact legal (.version var (indexing.get var)) owned

theorem settled_of_le {var : Variable} {index : UInt32}
    (le : index.toNat ≤ (indexing.get var).toNat) :
    assignment.settled indexing (.version var index) = assignment (.version var index) := by
  rw [settled, if_pos le]

theorem storeAt_settled {later : Indexing} (upTo : indexing.UpTo later) :
    (assignment.settled indexing).storeAt later = assignment.storeAt indexing := by
  funext var
  simp only [storeAt, settled]
  split
  next le =>
    have same : later.get var = indexing.get var :=
      UInt32.toNat.inj (Nat.le_antisymm le (upTo var))
    rw [same]
  next => rfl

@[simp] theorem set_self (assignment : Assignment) (name : Symbol) (value : Value) :
    assignment.set name value name = value := if_pos rfl

def AgreesUpTo (indexing : Indexing) (left right : Assignment) : Prop :=
  ∀ var index, index.toNat ≤ (indexing.get var).toNat →
    left (.version var index) = right (.version var index)

theorem AgreesUpTo.storeAt {left right : Assignment} (agrees : AgreesUpTo indexing left right) :
    left.storeAt indexing = right.storeAt indexing :=
  funext fun var => agrees var _ (Nat.le_refl _)

theorem AgreesUpTo.holds_iff {left right : Assignment} (agrees : AgreesUpTo indexing left right)
    {formula : Formula} (versions : formula.VersionsUpTo indexing) :
    formula.Holds left ↔ formula.Holds right := by
  apply Formula.hasTruth_congr
  intro symbol mentions
  obtain ⟨index, same, le⟩ := versions symbol mentions
  rw [same]
  exact agrees symbol.var index le

theorem AgreesUpTo.refl (indexing : Indexing) (assignment : Assignment) :
    AgreesUpTo indexing assignment assignment :=
  fun _ _ _ => rfl

theorem AgreesUpTo.mono {earlier : Indexing} {left right : Assignment}
    (agrees : AgreesUpTo indexing left right) (upTo : earlier.UpTo indexing) :
    AgreesUpTo earlier left right :=
  fun var index le => agrees var index (Nat.le_trans le (upTo var))

theorem AgreesUpTo.trans {left middle right : Assignment}
    (first : AgreesUpTo indexing left middle) (second : AgreesUpTo indexing middle right) :
    AgreesUpTo indexing left right :=
  fun var index le => (first var index le).trans (second var index le)

section Next

variable {next : Indexing} {var : Variable} (assignment : Assignment) (value : Value)
  (advanced : indexing.next? var = some next)

include advanced

theorem agreesUpTo_set_next :
    AgreesUpTo indexing (assignment.set (.version var (next.get var)) value) assignment := by
  intro other index le
  refine if_neg fun same => ?_
  obtain ⟨rfl, rfl⟩ := Symbol.version.inj same
  rw [Indexing.get_next advanced, if_pos rfl] at le
  omega

theorem storeAt_set_next : (assignment.set (.version var (next.get var)) value).storeAt next =
    (assignment.storeAt indexing).set var value := by
  rw [storeAt_next advanced, set_self, (agreesUpTo_set_next assignment value advanced).storeAt]

end Next

end Assignment

namespace Formula

/-- An unfolded formula has the value of the formula in the store of current
values. -/
theorem Plain.hasValue_unfolded_iff {formula unfolded : Formula} {indexing : Indexing}
    (plain : formula.Plain) (found : formula.unfoldAt? indexing = some unfolded)
    {assignment : Assignment} {value : Value} :
    unfolded.HasValue assignment value ↔
      formula.HasValue (assignment.storeAt indexing).assignment value := by
  rw [(unfolds_of_unfoldPrimed? found).eq_rename_current plain.2 plain.1, hasValue_rename_iff]
  rfl

end Formula

namespace Lowered

variable {branch : Lowered} {target : Indexing} {assignment : Assignment}

theorem hasTruth_carried (assignment : Assignment) (branch : Lowered) (target : Indexing)
    (var : Variable) : (branch.carried target var).HasTruth assignment
      (assignment.storeAt target var = assignment.storeAt branch.indexing var) :=
  Formula.hasTruth_mkEq_symbol _ (Formula.hasValue_symbol assignment _)

theorem exists_hasTruth_padded (branch : Lowered)
    (decided : ∀ constraint ∈ branch.constraints, ∃ holds, constraint.HasTruth assignment holds) :
    ∃ holds, (branch.padded target).HasTruth assignment holds := by
  apply Formula.exists_hasTruth_mkAnd
  intro constraint member
  rcases List.mem_append.mp member with own | inPadding
  · exact decided constraint own
  · obtain ⟨var, -, rfl⟩ := exists_carried inPadding
    exact ⟨_, hasTruth_carried assignment branch target var⟩

theorem holds_padding_iff (grounded : target.default = 0) (upTo : branch.indexing.UpTo target) :
    (∀ constraint ∈ branch.padding target, constraint.Holds assignment) ↔
      assignment.storeAt target = assignment.storeAt branch.indexing := by
  constructor
  · intro hold
    funext var
    by_cases earlier : branch.indexing.get var < target.get var
    · have held := hold _ (mem_padding grounded earlier)
      simpa using (hasTruth_carried assignment branch target var).unique held
    · have same : target.get var = branch.indexing.get var :=
        UInt32.le_antisymm (UInt32.not_lt.mp earlier) (upTo var)
      rw [Assignment.storeAt, Assignment.storeAt, same]
  · rintro same constraint member
    obtain ⟨var, -, rfl⟩ := exists_carried member
    have truth := hasTruth_carried assignment branch target var
    rwa [decide_eq_true (congrFun same var)] at truth

end Lowered

namespace Statement

variable {own : Variable → Prop} {statement : Statement} {start : Indexing} {lowered : Lowered}
  {assignment : Assignment}

/-- The statement is well typed, its operations stay in range, and it concerns
only variables of a group. -/
structure Sensible (own : Variable → Prop) (statement : Statement) : Prop where
  wellTyped : statement.WellTyped
  inRange : statement.StaysInRange
  concerned : ∀ var, statement.Concerns var → own var

theorem Sensible.head {step : Statement} {rest : List Statement}
    (sensible : (Statement.sequence (step :: rest)).Sensible own) : step.Sensible own := by
  have ⟨.sequence wellTyped, .sequence inRange, concerned⟩ := sensible
  refine ⟨wellTyped step List.mem_cons_self, inRange step List.mem_cons_self, ?_⟩
  intro var concerns
  exact concerned var ((concerns_next_iff ..).mpr (.inl concerns))

theorem Sensible.tail {step : Statement} {rest : List Statement}
    (sensible : (Statement.sequence (step :: rest)).Sensible own) :
    (Statement.sequence rest).Sensible own := by
  have ⟨.sequence wellTyped, .sequence inRange, concerned⟩ := sensible
  refine ⟨.sequence fun later member => wellTyped later (List.mem_cons_of_mem step member),
    .sequence fun later member => inRange later (List.mem_cons_of_mem step member), ?_⟩
  intro var concerns
  exact concerned var ((concerns_next_iff ..).mpr (.inr concerns))

theorem Sensible.branch {branch : Statement} {branches : List Statement}
    (sensible : (Statement.choice branches).Sensible own) (member : branch ∈ branches) :
    branch.Sensible own := by
  have ⟨.choice wellTyped, .choice inRange, concerned⟩ := sensible
  refine ⟨wellTyped branch member, inRange branch member, ?_⟩
  intro var concerns
  exact concerned var ((concerns_choice_iff ..).mpr ⟨branch, member, concerns⟩)

theorem Sensible.exists_value {var : Variable} {formula : Formula}
    (sensible : (Statement.assign var formula).Sensible own) (legal : assignment.LegalFor own)
    (indexing : Indexing) :
    ∃ value, formula.HasValue (assignment.storeAt indexing).assignment value := by
  have ⟨.assign plain typed, .assign _ inRange, concerned⟩ := sensible
  have within : (assignment.storeAt indexing).assignment.Within formula := fun symbol mentions =>
    legal (.version symbol.var (indexing.get symbol.var))
      (concerned _ ((concerns_assign_iff ..).mpr (.inr ⟨symbol, mentions, rfl⟩)))
  obtain ⟨value, evaluated, -⟩ :=
    inRange.exists_hasValue ((Formula.inferSort_eq_ok_iff ..).mp typed) plain.1 within
  exact ⟨value, evaluated⟩

theorem Sensible.exists_truth {condition : Formula}
    (sensible : (Statement.assume condition).Sensible own) (legal : assignment.LegalFor own)
    (indexing : Indexing) :
    ∃ holds, condition.HasTruth (assignment.storeAt indexing).assignment holds := by
  have ⟨.assume plain boolean, .assume inRange, concerned⟩ := sensible
  have within : (assignment.storeAt indexing).assignment.Within condition := fun symbol mentions =>
    legal (.version symbol.var (indexing.get symbol.var))
      (concerned _ ((concerns_assume_iff ..).mpr ⟨symbol, mentions, rfl⟩))
  exact inRange.decided boolean plain.1 _ within

theorem Lowers.exists_hasTruth (lowers : Lowers start statement lowered)
    (sensible : statement.Sensible own) (grounded : start.default = 0)
    (legal : assignment.LegalFor own) :
    ∀ constraint ∈ lowered.constraints, ∃ holds, constraint.HasTruth assignment holds := by
  induction lowers with
  | skip | havoc _ | done | idle => simp
  | @assign start next var formula unfolded advanced found =>
      have ⟨.assign plain _, _, _⟩ := sensible
      obtain ⟨value, evaluated⟩ := sensible.exists_value legal start
      have unfoldedValue := (plain.hasValue_unfolded_iff found).mpr evaluated
      exact List.forall_mem_singleton.mpr ⟨_, Formula.hasTruth_mkEq_symbol _ unfoldedValue⟩
  | @assume start condition unfolded found =>
      have ⟨.assume plain _, _, _⟩ := sensible
      obtain ⟨holds, truth⟩ := sensible.exists_truth legal start
      exact List.forall_mem_singleton.mpr ⟨holds, (plain.hasValue_unfolded_iff found).mpr truth⟩
  | next lowersFirst _ firstCase restCase =>
      intro constraint member
      rcases List.mem_append.mp member with inFirst | inSecond
      · exact firstCase sensible.head grounded constraint inFirst
      · exact restCase sensible.tail (lowersFirst.default_eq.trans grounded) constraint inSecond
  | @choice start branches lowered nonempty length lowers branchCases =>
      have met : (Lowered.meeting start lowered).default = 0 :=
        (Lowers.choice nonempty length lowers).default_eq.trans grounded
      rw [Lowered.merge_eq]
      refine List.forall_mem_singleton.mpr
        (Formula.exists_hasTruth_mkOr (List.forall_mem_map.mpr fun low member => ?_))
      obtain ⟨place, branch, found, foundLow⟩ := exists_branch length member
      have ofBranch := branchCases place branch low found foundLow
        (sensible.branch (List.mem_of_getElem? found)) grounded
      exact low.exists_hasTruth_padded ofBranch

/-- The versions after a statement are related as the statement says. -/
theorem Lowers.executes (lowers : Lowers start statement lowered)
    (sensible : statement.Sensible own) (grounded : start.default = 0)
    (legal : assignment.LegalFor own)
    (hold : ∀ constraint ∈ lowered.constraints, constraint.Holds assignment) :
    statement.Executes (assignment.storeAt start) (assignment.storeAt lowered.indexing) := by
  induction lowers with
  | skip start => exact .skip _
  | @assign start next var formula unfolded advanced found =>
      have ⟨.assign plain _, _, concerned⟩ := sensible
      obtain ⟨value, evaluated⟩ := sensible.exists_value legal start
      have unfoldedValue := (plain.hasValue_unfolded_iff found).mpr evaluated
      have equal : assignment (.version var (next.get var)) = value :=
        (Formula.holds_mkEq_symbol_iff unfoldedValue).mp (hold _ List.mem_cons_self)
      have inDomain := legal (.version var (next.get var))
        (concerned var ((concerns_assign_iff ..).mpr (.inl rfl)))
      rw [Assignment.storeAt_next advanced]
      rw [equal] at inDomain ⊢
      exact .assign evaluated inDomain
  | @assume start condition unfolded found =>
      have ⟨.assume plain _, _, _⟩ := sensible
      exact .assume ((plain.hasValue_unfolded_iff found).mp (hold _ List.mem_cons_self))
  | @havoc start next var advanced =>
      rw [Assignment.storeAt_next advanced]
      exact .havoc _ (legal (.version var (next.get var))
        (sensible.concerned var ((concerns_havoc_iff ..).mpr rfl)))
  | done start => exact .done _
  | next lowersFirst _ firstCase restCase =>
      have first := firstCase sensible.head grounded fun constraint member =>
        hold constraint (List.mem_append_left _ member)
      have rest := restCase sensible.tail (lowersFirst.default_eq.trans grounded)
        fun constraint member => hold constraint (List.mem_append_right _ member)
      exact .next first rest
  | idle start => exact .idle _
  | @choice start branches lowered nonempty length lowers branchCases =>
      have met : (Lowered.meeting start lowered).default = 0 :=
        (Lowers.choice nonempty length lowers).default_eq.trans grounded
      rw [Lowered.merge_eq] at hold ⊢
      obtain ⟨_, taken, held⟩ := Formula.exists_holds_of_mkOr (hold _ List.mem_cons_self)
      obtain ⟨low, member, rfl⟩ := List.mem_map.mp taken
      obtain ⟨place, branch, found, foundLow⟩ := exists_branch length member
      have inBranches := List.mem_of_getElem? found
      have each := (Formula.holds_mkAnd_iff _).mp held
      have executes := branchCases place branch low found foundLow (sensible.branch inBranches)
        grounded fun constraint member => each constraint (List.mem_append_left _ member)
      have kept := (Lowered.holds_padding_iff met (Lowered.upTo_meeting start member)).mp
        fun constraint member => each constraint (List.mem_append_right _ member)
      rw [kept]
      exact .branch inBranches executes

theorem Lowers.exists_assignment (lowers : Lowers start statement lowered)
    (sensible : statement.Sensible own) (grounded : start.default = 0)
    (legal : assignment.LegalFor own) {after : Store}
    (executes : statement.Executes (assignment.storeAt start) after) :
    ∃ other : Assignment, other.LegalFor own ∧ Assignment.AgreesUpTo start other assignment ∧
      other.storeAt lowered.indexing = after ∧
      ∀ constraint ∈ lowered.constraints, constraint.Holds other := by
  induction lowers generalizing assignment after with
  | skip start =>
      cases executes with
      | skip => exact ⟨assignment, legal, .refl _ _, rfl, by simp⟩
  | @assign start next var formula unfolded advanced found =>
      have ⟨.assign plain _, _, _⟩ := sensible
      cases executes with
      | @assign _ _ _ value evaluated inDomain =>
          have agrees := Assignment.agreesUpTo_set_next assignment value advanced
          refine ⟨_, legal.set (.version var (next.get var)) inDomain, agrees,
            Assignment.storeAt_set_next assignment value advanced, ?_⟩
          have unfoldedValue := (plain.hasValue_unfolded_iff found).mpr (agrees.storeAt ▸ evaluated)
          exact List.forall_mem_singleton.mpr ((Formula.holds_mkEq_symbol_iff unfoldedValue).mpr
            (Assignment.set_self ..))
  | @assume start condition unfolded found =>
      have ⟨.assume plain _, _, _⟩ := sensible
      cases executes with
      | assume holds =>
          refine ⟨assignment, legal, .refl _ _, rfl, ?_⟩
          exact List.forall_mem_singleton.mpr ((plain.hasValue_unfolded_iff found).mpr holds)
  | @havoc start next var advanced =>
      cases executes with
      | @havoc _ value _ inDomain =>
          exact ⟨_, legal.set (.version var (next.get var)) inDomain,
            Assignment.agreesUpTo_set_next assignment value advanced,
            Assignment.storeAt_set_next assignment value advanced, by simp⟩
  | done start =>
      cases executes with
      | done => exact ⟨assignment, legal, .refl _ _, rfl, by simp⟩
  | @next start step rest first second lowersFirst _ firstCase restCase =>
      cases executes with
      | next executesFirst executesRest =>
          obtain ⟨between, legalBetween, agrees, rfl, holdFirst⟩ :=
            firstCase sensible.head grounded legal executesFirst
          obtain ⟨other, legalOther, agreesOther, reached, holdSecond⟩ := restCase sensible.tail
            (lowersFirst.default_eq.trans grounded) legalBetween executesRest
          have follows := sensible.head.wellTyped.follows_lower lowersFirst.lower?_eq
          refine ⟨other, legalOther, (agreesOther.mono follows.grows).trans agrees, reached, ?_⟩
          intro constraint member
          rcases List.mem_append.mp member with inFirst | inSecond
          · exact (agreesOther.holds_iff (follows.constrains constraint inFirst).versions).mpr
              (holdFirst constraint inFirst)
          · exact holdSecond constraint inSecond
  | idle start =>
      cases executes with
      | idle => exact ⟨assignment, legal, .refl _ _, rfl, by simp⟩
      | branch member => cases member
  | @choice start branches lowered nonempty length lowers branchCases =>
      have met : (Lowered.meeting start lowered).default = 0 :=
        (Lowers.choice nonempty length lowers).default_eq.trans grounded
      cases executes with
      | idle => exact absurd rfl nonempty
      | @branch branch _ _ _ member executes =>
          obtain ⟨place, low, found, foundLow⟩ := exists_lowered_branch length member
          have lowersBranch := lowers place branch low found foundLow
          have sensibleBranch := sensible.branch member
          obtain ⟨other, legalOther, agrees, rfl, hold⟩ :=
            branchCases place branch low found foundLow sensibleBranch grounded legal executes
          have follows := sensibleBranch.wellTyped.follows_lower lowersBranch.lower?_eq
          have inLowered := List.mem_of_getElem? foundLow
          have upTo := Lowered.upTo_meeting start inLowered
          have settles : Assignment.AgreesUpTo low.indexing (other.settled low.indexing) other :=
            fun _ _ => Assignment.settled_of_le
          have legalSettled := legalOther.settled low.indexing
          refine ⟨other.settled low.indexing, legalSettled,
            (settles.mono follows.grows).trans agrees, Assignment.storeAt_settled upTo, ?_⟩
          rw [Lowered.merge_eq]
          refine List.forall_mem_singleton.mpr ((Formula.holds_mkOr_iff ?_).mpr
            ⟨_, List.mem_map_of_mem inLowered, (Formula.holds_mkAnd_iff _).mpr ?_⟩)
          · refine List.forall_mem_map.mpr fun later memberLater => ?_
            obtain ⟨place, branch, found, foundLater⟩ := exists_branch length memberLater
            apply later.exists_hasTruth_padded
            exact (lowers place branch later found foundLater).exists_hasTruth
              (sensible.branch (List.mem_of_getElem? found)) grounded legalSettled
          · intro constraint member
            rcases List.mem_append.mp member with own | inPadding
            · exact (settles.holds_iff (follows.constrains constraint own).versions).mpr
                (hold constraint own)
            · refine (Lowered.holds_padding_iff met upTo).mpr ?_ constraint inPadding
              rw [Assignment.storeAt_settled upTo, Assignment.storeAt_settled (.refl _)]

end Statement

namespace Statement

variable {statement : Statement} {start : Indexing} {lowered : Lowered}

/-- The valuation has the values before a statement at the versions of one
indexing and the values after it at those of another. -/
def Joins (statement : Statement) (start reached : Indexing) (valuation : Valuation)
    (before after : Store) : Prop :=
  ∀ var, statement.Concerns var →
    valuation.get? (.version var (start.get var)) = some (before var) ∧
      valuation.get? (.version var (reached.get var)) = some (after var)

private theorem Lowers.within (lowers : Lowers start statement lowered)
    (wellTyped : statement.WellTyped) {assignment : Assignment}
    (legal : assignment.LegalFor statement.Concerns) : assignment.Within lowered.formula := by
  intro symbol mentions
  obtain ⟨constraint, member, mentions⟩ := Formula.mentions_of_junction mentions
  exact legal symbol (lowers.concerns_of_mentions wellTyped member mentions)

theorem Lowers.exists_valuation (lowers : Lowers start statement lowered)
    (wellTyped : statement.WellTyped) (inRange : statement.StaysInRange)
    (grounded : start.default = 0) {before after : Store}
    (legal : ∀ var, statement.Concerns var → var.domain.contains (before var) = true)
    (executes : statement.Executes before after) :
    ∃ valuation : Valuation, statement.Joins start lowered.indexing valuation before after ∧
      valuation.Admits lowered.formula ∧ lowered.formula.evaluate valuation = .ok (.bool true) := by
  have legalBefore : before.assignment.LegalFor statement.Concerns :=
    fun symbol concerns => legal symbol.var concerns
  obtain ⟨other, legalOther, agrees, rfl, hold⟩ :=
    lowers.exists_assignment ⟨wellTyped, inRange, fun _ concerns => concerns⟩ grounded legalBefore
      executes
  -- The valuation also binds variables that no constraint mentions.
  let ends := statement.vars.keys.flatMap fun var =>
    [Formula.version var (start.get var), .version var (lowered.indexing.get var)]
  have bound {formula : Formula} (member : formula ∈ lowered.formula :: ends) {symbol : Symbol}
      (mentions : formula.Mentions symbol) :
      (other.valuation (lowered.formula :: ends)).get? symbol = some (other symbol) :=
    other.get?_valuation member mentions
  have inEnds {var : Variable} (concerns : statement.Concerns var) (index : UInt32)
      (isEnd : index = start.get var ∨ index = lowered.indexing.get var) :
      (other.valuation (lowered.formula :: ends)).get? (.version var index) =
        some (other (.version var index)) := by
    apply bound (List.mem_cons_of_mem _ (List.mem_flatMap.mpr ⟨var, concerns, _⟩))
      ((Formula.mentions_symbol _ _).mpr rfl)
    rcases isEnd with rfl | rfl <;> simp [Formula.version]
  refine ⟨other.valuation (lowered.formula :: ends), fun var concerns => ?_, ?_, ?_⟩
  · rw [inEnds concerns _ (.inl rfl), inEnds concerns _ (.inr rfl), agrees var _ (Nat.le_refl _)]
    exact ⟨rfl, rfl⟩
  · exact (lowers.within wellTyped legalOther).admits List.mem_cons_self
  · have holds : lowered.formula.Holds other := (Formula.holds_mkAnd_iff _).mpr hold
    rw [Formula.evaluate_eq_ok_iff]
    exact (Formula.hasTruth_iff fun symbol => bound List.mem_cons_self).mp holds

theorem Lowers.executes_of_valuation (lowers : Lowers start statement lowered)
    (wellTyped : statement.WellTyped) (inRange : statement.StaysInRange)
    (grounded : start.default = 0) {before after : Store}
    (proper : ∀ var, statement.Concerns var → var.domain.Proper)
    (legal : ∀ var, statement.Concerns var → var.domain.contains (before var) = true ∧
      var.domain.contains (after var) = true)
    (unchanged : ∀ var, ¬ statement.Concerns var → after var = before var) {valuation : Valuation}
    (joins : statement.Joins start lowered.indexing valuation before after)
    (admits : valuation.Admits lowered.formula)
    (evaluated : lowered.formula.evaluate valuation = .ok (.bool true)) :
    statement.Executes before after := by
  have holds := (Formula.holds_mkAnd_iff _).mp (admits.hasTruth_iff.mpr evaluated)
  have executes := lowers.executes ⟨wellTyped, inRange, fun _ concerns => concerns⟩ grounded
    (fun symbol concerns => Valuation.contains_completed (proper symbol.var concerns)) holds
  have same (var : Variable) (concerns : statement.Concerns var) :
      before var = valuation.completed.storeAt start var :=
    (Valuation.completed_eq (joins var concerns).1 (legal var concerns).1).symm
  obtain ⟨result, executes, inside, outside⟩ :=
    executes.frame (fun _ concerns => concerns) same
  have reached : result = after := by
    funext var
    by_cases concerns : statement.Concerns var
    · rw [inside var concerns]
      exact Valuation.completed_eq (joins var concerns).2 (legal var concerns).2
    · rw [outside var concerns, unchanged var concerns]
  exact reached ▸ executes

end Statement

namespace Action

variable {statement : Statement}

theorem exists_ofStatement (wellTyped : statement.WellTyped)
    (fits : ∀ var, statement.writes var < UInt32.size) :
    ∃ lowered formula, statement.Lowers (.all 0) lowered ∧
      ofStatement statement = .ok ⟨formula, lowered.indexing⟩ ∧
      formula.unfoldAt? (.all 0) = some lowered.formula := by
  obtain ⟨lowered, lowers, -⟩ : Statement.Lowerable (.all 0) statement :=
    wellTyped.lowerable fun var => by simpa using fits var
  have follows := wellTyped.follows_lower lowers.lower?_eq
  have constrains : lowered.formula.Constrains lowered.indexing :=
    .junction rfl follows.constrains
  obtain ⟨formula, folded⟩ : ∃ formula, lowered.formula.fold (.all 0) = .ok formula :=
    Formula.exists_fold fun var index mentions => by simp
  refine ⟨lowered, formula, lowers, ?_, ?_⟩
  · simp only [ofStatement, lowers.lower?_eq, Outcome.bind_eq_ok_iff, Outcome.mapError_eq_ok_iff,
      Outcome.pure_eq_ok_iff]
    exact ⟨formula, folded, rfl⟩
  · apply Formula.unfoldAt?_of_fold folded constrains.primeFree
    intro symbol mentions
    obtain ⟨index, same, -⟩ := constrains.versions symbol mentions
    exact ⟨index, same⟩

/-- The formula of a statement relates exactly the stores that the statement
relates. -/
theorem executes_iff_of_ofStatement (wellTyped : statement.WellTyped)
    (inRange : statement.StaysInRange)
    (proper : ∀ var, statement.Concerns var → var.domain.Proper)
    (fits : ∀ var, statement.writes var < UInt32.size) :
    ∃ action unfolded, ofStatement statement = .ok action ∧
      action.formula.unfoldAt? (.all 0) = some unfolded ∧
      ∀ before after : Store,
        (∀ var, statement.Concerns var → var.domain.contains (before var) = true ∧
          var.domain.contains (after var) = true) →
        (∀ var, ¬ statement.Concerns var → after var = before var) →
        (statement.Executes before after ↔ ∃ valuation : Valuation,
          statement.Joins (.all 0) action.delta valuation before after ∧
          valuation.Admits unfolded ∧ unfolded.evaluate valuation = .ok (.bool true)) := by
  obtain ⟨lowered, formula, lowers, made, unfolded⟩ := exists_ofStatement wellTyped fits
  refine ⟨⟨formula, lowered.indexing⟩, lowered.formula, made, unfolded, ?_⟩
  intro before after legal unchanged
  constructor
  · intro executes
    exact lowers.exists_valuation wellTyped inRange rfl (fun var concerns => (legal var concerns).1)
      executes
  · rintro ⟨valuation, joins, admits, evaluated⟩
    exact lowers.executes_of_valuation wellTyped inRange rfl proper legal unchanged joins admits
      evaluated

namespace Nested

def level : Variable := ⟨0, "level", .range 0 3⟩

def positive : Formula := .binary .leq (.int 1) (.current level)

/-- Choices in a sequence in a choice. One branch writes the level twice, the
other not at all. -/
def drained : Statement :=
  .choice [.sequence [.choice [.havoc level, .skip], .assume positive, .assign level (.int 0)],
    .skip]

private theorem plain_positive : positive.Plain :=
  .binary (Formula.plain_int 1) (Formula.plain_current level)

private theorem wellTyped_drained : drained.WellTyped := by
  have steps : ∀ step ∈ [Statement.choice [.havoc level, .skip], .assume positive,
      .assign level (.int 0)], step.WellTyped := by
    simp only [List.forall_mem_cons]
    exact ⟨.choice (by simpa using ⟨.havoc level, .skip⟩), .assume plain_positive rfl,
      .assign (Formula.plain_int 0) rfl, by simp⟩
  exact .choice (by simpa using ⟨.sequence steps, .skip⟩)

private theorem staysInRange_drained : drained.StaysInRange := by
  have condition : positive.StaysInRange := by
    refine Formula.staysInRange_of_evaluatesTo fun valuation admits => ?_
    obtain ⟨word, evaluated, -⟩ := admits.exists_evaluatesTo (.current level)
      (by simp [positive, Formula.current]) rfl
    exact ⟨_, .binary (by decide) (.int 1) evaluated rfl⟩
  have value : (Formula.int 0).StaysInRange :=
    Formula.staysInRange_of_evaluatesTo fun valuation _ => ⟨_, .int 0⟩
  have steps : ∀ step ∈ [Statement.choice [.havoc level, .skip], .assume positive,
      .assign level (.int 0)], step.StaysInRange := by
    simp only [List.forall_mem_cons]
    exact ⟨.choice (by simpa using ⟨.havoc level, .skip⟩), .assume condition, .assign level value,
      by simp⟩
  exact .choice (by simpa using ⟨.sequence steps, .skip⟩)

private theorem eq_level {var : Variable} (concerns : drained.Concerns var) : var = level := by
  have known : drained.vars.keys = [level] := by decide +kernel
  rw [Statement.Concerns, known] at concerns
  exact List.mem_singleton.mp concerns

private theorem writes_drained_le (var : Variable) : drained.writes var ≤ 2 := by
  simp only [drained, Statement.writes, Statement.writesInTurn, Statement.writesOfAny]
  split <;> decide

theorem executes_iff_of_ofStatement_drained :
    drained.WellTyped ∧ drained.StaysInRange ∧
    (∀ var, drained.Concerns var → var.domain.Proper) ∧
    (∀ var, drained.writes var < UInt32.size) ∧
    ∃ action unfolded, ofStatement drained = .ok action ∧
      action.formula.unfoldAt? (.all 0) = some unfolded ∧
      ∀ before after : Store,
        (∀ var, drained.Concerns var → var.domain.contains (before var) = true ∧
          var.domain.contains (after var) = true) →
        (∀ var, ¬ drained.Concerns var → after var = before var) →
        (drained.Executes before after ↔ ∃ valuation : Valuation,
          drained.Joins (.all 0) action.delta valuation before after ∧
          valuation.Admits unfolded ∧ unfolded.evaluate valuation = .ok (.bool true)) := by
  have proper : ∀ var, drained.Concerns var → var.domain.Proper := by
    intro var concerns
    rw [eq_level concerns]
    decide
  have fits : ∀ var, drained.writes var < UInt32.size := fun var =>
    Nat.lt_of_le_of_lt (writes_drained_le var) (by decide)
  exact ⟨wellTyped_drained, staysInRange_drained, proper, fits,
    executes_iff_of_ofStatement wellTyped_drained staysInRange_drained proper fits⟩

end Nested

end Action

end SymbolicSafety
