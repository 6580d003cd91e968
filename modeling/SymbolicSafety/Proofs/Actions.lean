import SymbolicSafety.Proofs.Folding

namespace SymbolicSafety

/-! What actions are like. Whether a step is given by a formula with primes or by
a statement, its formula is Boolean and about plain variables, and a variable
occurs below no more primes than the step takes it forward. -/

/-- The formula is Boolean and free of versions, and a step takes each variable
at least as far as the primes it occurs below. -/
structure Action.Regular (action : Action) : Prop where
  typed : action.formula.HasSort .bool
  versionFree : action.formula.VersionFree
  reaches : ∀ (var : Variable) (primes : Nat), Formula.OccursUnder var primes action.formula →
    primes ≤ (action.delta.get var).toNat

/-! ## Formulas with primes -/

namespace Formula

private def depthIn (depths : SortedMap Variable Nat) (var : Variable) : Nat :=
  (depths.get? var).getD 0

private theorem depthIn_deepen (depths : SortedMap Variable Nat) (var other : Variable)
    (primes : Nat) : depthIn (deepen depths var primes) other =
      if other = var then max (depthIn depths var) primes else depthIn depths other := by
  rw [depthIn, deepen, SortedMap.get?_insert]
  split <;> rfl

private theorem depthIn_le_collectAll {operands : List Formula} {var : Variable} {primes : Nat}
    (each : ∀ operand ∈ operands, ∀ depths,
      depthIn depths var ≤ depthIn (operand.collectPrimeDepths primes depths) var)
    (depths : SortedMap Variable Nat) :
    depthIn depths var ≤ depthIn (collectAllPrimeDepths primes operands depths) var := by
  induction operands generalizing depths with
  | nil => exact Nat.le_refl _
  | cons head rest induction =>
      obtain ⟨headCase, restCases⟩ := List.forall_mem_cons.mp each
      exact Nat.le_trans (headCase depths) (induction restCases _)

private theorem depthIn_le_collect (formula : Formula) (var : Variable) (primes : Nat)
    (depths : SortedMap Variable Nat) :
    depthIn depths var ≤ depthIn (formula.collectPrimeDepths primes depths) var := by
  induction formula generalizing primes depths with
  | bool | int => exact Nat.le_refl _
  | symbol name =>
      cases name with
      | version => exact Nat.le_refl _
      | current other =>
          rw [collectPrimeDepths, depthIn_deepen]
          split
          next same => exact same ▸ Nat.le_max_left _ _
          next => exact Nat.le_refl _
  | unary op operand operandCase =>
      cases op with
      | prime => exact operandCase (primes + 1) depths
      | not | neg => exact operandCase primes depths
  | binary op left right leftCase rightCase =>
      exact Nat.le_trans (leftCase primes depths) (rightCase primes _)
  | nary op operands operandCases =>
      exact depthIn_le_collectAll
        (fun operand member depths => operandCases operand member primes depths) depths
  | ite condition consequent alternative conditionCase consequentCase alternativeCase =>
      exact Nat.le_trans (conditionCase primes depths)
        (Nat.le_trans (consequentCase primes _) (alternativeCase primes _))

private theorem le_depthIn_collectAll {operands : List Formula} {operand : Formula}
    {var : Variable} {primes depth : Nat} (member : operand ∈ operands)
    (recorded : ∀ depths, depth ≤ depthIn (operand.collectPrimeDepths primes depths) var)
    (depths : SortedMap Variable Nat) :
    depth ≤ depthIn (collectAllPrimeDepths primes operands depths) var := by
  induction operands generalizing depths with
  | nil => simp at member
  | cons head rest induction =>
      rw [collectAllPrimeDepths]
      rcases List.mem_cons.mp member with rfl | inRest
      · exact Nat.le_trans (recorded depths)
          (depthIn_le_collectAll (fun other _ => depthIn_le_collect other var primes) _)
      · exact induction inRest _

private theorem le_depthIn_collect {formula : Formula} {var : Variable} {below : Nat}
    (occurs : OccursUnder var below formula) (primes : Nat) (depths : SortedMap Variable Nat) :
    primes + below ≤ depthIn (formula.collectPrimeDepths primes depths) var := by
  induction occurs generalizing primes depths with
  | here =>
      rw [collectPrimeDepths, depthIn_deepen, if_pos rfl]
      exact Nat.le_max_right _ _
  | @prime below operand _ operandCase =>
      rw [collectPrimeDepths]
      have recorded := operandCase (primes + 1) depths
      omega
  | @within below formula child notPrime member _ childCase =>
      cases formula with
      | bool | int | symbol => simp [children] at member
      | unary op operand =>
          obtain rfl := List.mem_singleton.mp member
          cases op with
          | prime => exact absurd rfl (notPrime _)
          | not | neg => exact childCase primes depths
      | binary op left right =>
          simp only [children, List.mem_cons, List.not_mem_nil, or_false] at member
          rcases member with rfl | rfl
          · exact Nat.le_trans (childCase primes depths) (depthIn_le_collect right var primes _)
          · exact childCase primes _
      | nary op operands =>
          exact le_depthIn_collectAll member (childCase primes) depths
      | ite condition consequent alternative =>
          simp only [children, List.mem_cons, List.not_mem_nil, or_false] at member
          rcases member with rfl | rfl | rfl
          · exact Nat.le_trans (childCase primes depths)
              (Nat.le_trans (depthIn_le_collect consequent var primes _)
                (depthIn_le_collect alternative var primes _))
          · exact Nat.le_trans (childCase primes _) (depthIn_le_collect alternative var primes _)
          · exact childCase primes _

end Formula

namespace Action

private theorem get_foldlM_set {entries : List (Variable × Nat)} {start delta : Indexing}
    (distinct : entries.Pairwise fun left right => left.1 ≠ right.1)
    (folded : entries.foldlM (fun delta entry => do
      pure (delta.set entry.1 (← Version.ofNat? entry.2))) start = some delta) :
    (∀ entry ∈ entries, (delta.get entry.1).toNat = entry.2) ∧
      ∀ var, (∀ entry ∈ entries, entry.1 ≠ var) → delta.get var = start.get var := by
  induction entries generalizing start with
  | nil => simp_all
  | cons head rest induction =>
      obtain ⟨different, distinctRest⟩ := List.pairwise_cons.mp distinct
      simp only [List.foldlM_cons, Option.bind_eq_bind, Option.bind_eq_some_iff, Option.pure_def,
        Option.some.injEq] at folded
      obtain ⟨_, ⟨index, found, rfl⟩, foldedRest⟩ := folded
      obtain ⟨later, others⟩ := induction distinctRest foldedRest
      refine ⟨List.forall_mem_cons.mpr ⟨?_, later⟩, fun var absent => ?_⟩
      · rw [others head.1 fun entry member => (different entry member).symm, Indexing.get_set,
          if_pos rfl]
        exact (Version.ofNat?_eq_some_iff _ _).mp found
      · obtain ⟨notHead, notRest⟩ := List.forall_mem_cons.mp absent
        rw [others var notRest, Indexing.get_set, if_neg notHead.symm]

theorem regular_ofFormula {formula : Formula} {action : Action} (boolean : formula.IsBoolean)
    (free : formula.VersionFree) (made : ofFormula? formula = some action) : action.Regular := by
  simp only [ofFormula?, Option.bind_eq_bind, Option.bind_eq_some_iff, Option.pure_def,
    Option.some.injEq] at made
  obtain ⟨delta, folded, rfl⟩ := made
  refine ⟨(Formula.inferSort_eq_ok_iff formula .bool).mp boolean, free, fun var primes occurs => ?_⟩
  have recorded := Formula.le_depthIn_collect occurs 0 SortedMap.empty
  rw [Nat.zero_add, Formula.depthIn, ← Formula.primeDepths] at recorded
  have distinct : formula.primeDepths.entries.Pairwise fun left right => left.1 ≠ right.1 :=
    formula.primeDepths.ascending.imp fun less same => by
      simp [same, Std.ReflOrd.compare_self] at less
  cases found : formula.primeDepths.get? var with
  | none =>
      rw [found] at recorded
      exact Nat.le_trans recorded (Nat.zero_le _)
  | some depth =>
      rw [found] at recorded
      have held := (get_foldlM_set distinct folded).1 _
        ((SortedMap.get?_eq_some_iff _ _ _).mp found)
      exact held ▸ recorded

end Action

/-! ## Statements -/

/-- The formula speaks about the current state only. -/
def Formula.Plain (formula : Formula) : Prop := formula.PrimeFree ∧ formula.VersionFree

namespace Formula

theorem Plain.binary {op : BinaryOp} {left right : Formula} (plainLeft : left.Plain)
    (plainRight : right.Plain) : (Formula.binary op left right).Plain := by
  constructor
  · exact (primeFree_binary ..).mpr ⟨plainLeft.1, plainRight.1⟩
  · intro var index mentions
    rcases (mentions_binary ..).mp mentions with inLeft | inRight
    · exact plainLeft.2 var index inLeft
    · exact plainRight.2 var index inRight

theorem plain_current (var : Variable) : (Formula.current var).Plain := by
  constructor
  · exact primeFree_symbol (.current var)
  · simp [VersionFree, current]

theorem plain_int (word : Int64) : (Formula.int word).Plain := by
  constructor
  · exact primeFree_int word
  · simp [VersionFree]

end Formula

namespace Statement

/-- Values have the sorts of their variables, conditions are Boolean, and all of
them are about the current state. -/
inductive WellTyped : Statement → Prop where
  | skip : WellTyped .skip
  | assign {var : Variable} {value : Formula} :
      value.Plain → value.inferSort = .ok var.domain.sort → WellTyped (.assign var value)
  | assume {condition : Formula} :
      condition.Plain → condition.IsBoolean → WellTyped (.assume condition)
  | havoc (var : Variable) : WellTyped (.havoc var)
  | sequence {steps : List Statement} :
      (∀ step ∈ steps, WellTyped step) → WellTyped (.sequence steps)
  | choice {branches : List Statement} :
      (∀ branch ∈ branches, WellTyped branch) → WellTyped (.choice branches)

end Statement

namespace Indexing

variable {left right : Indexing}

def UpTo (left right : Indexing) : Prop := ∀ var, (left.get var).toNat ≤ (right.get var).toNat

theorem UpTo.refl (indexing : Indexing) : indexing.UpTo indexing := fun _ => Nat.le_refl _

theorem UpTo.trans {middle : Indexing} (first : left.UpTo middle) (second : middle.UpTo right) :
    left.UpTo right :=
  fun var => Nat.le_trans (first var) (second var)

theorem toNat_max (left right : UInt32) :
    (max left right).toNat = max left.toNat right.toNat := by
  have apart : max left right = if left ≤ right then right else left := rfl
  rw [apart]
  simp only [UInt32.le_iff_toNat_le]
  split <;> omega

theorem upTo_join_left (left right : Indexing) : left.UpTo (left.join right) := by
  intro var
  rw [get_join, toNat_max]
  exact Nat.le_max_left _ _

theorem upTo_join_right (left right : Indexing) : right.UpTo (left.join right) := by
  intro var
  rw [get_join, toNat_max]
  exact Nat.le_max_right _ _

theorem get_next {indexing next : Indexing} {var : Variable}
    (result : indexing.next? var = some next) (other : Variable) :
    (next.get other).toNat = (indexing.get other).toNat + if other = var then 1 else 0 := by
  simp only [next?, Option.bind_eq_bind, Option.bind_eq_some_iff, Option.pure_def,
    Option.some.injEq] at result
  obtain ⟨index, added, rfl⟩ := result
  have number := (Version.ofNat?_eq_some_iff _ _).mp added
  rw [get_set]
  split
  next same => rw [number, same]; rfl
  next => rfl

theorem upTo_next {indexing next : Indexing} {var : Variable}
    (result : indexing.next? var = some next) : indexing.UpTo next := by
  intro other
  rw [get_next result]
  exact Nat.le_add_right _ _

end Indexing

namespace Formula

variable {indexing : Indexing} {formula unfolded : Formula}

/-- Every symbol is a version, and none is later than that of the indexing. -/
def VersionsUpTo (indexing : Indexing) (formula : Formula) : Prop :=
  ∀ symbol, formula.Mentions symbol → ∃ index, symbol = .version symbol.var index ∧
    index.toNat ≤ (indexing.get symbol.var).toNat

theorem VersionsUpTo.mono {later : Indexing} (versions : formula.VersionsUpTo indexing)
    (upTo : indexing.UpTo later) : formula.VersionsUpTo later := by
  intro symbol mentions
  obtain ⟨index, same, le⟩ := versions symbol mentions
  exact ⟨index, same, Nat.le_trans le (upTo symbol.var)⟩

structure Constrains (indexing : Indexing) (formula : Formula) : Prop where
  typed : formula.HasSort .bool
  primeFree : formula.PrimeFree
  versions : formula.VersionsUpTo indexing

theorem Constrains.mono {later : Indexing} (constrains : formula.Constrains indexing)
    (upTo : indexing.UpTo later) : formula.Constrains later :=
  { constrains with versions := constrains.versions.mono upTo }

theorem Constrains.junction {op : NaryOp} {neutral : Bool} {operands : List Formula}
    (kind : op.sort = .bool) (each : ∀ operand ∈ operands, operand.Constrains indexing) :
    (Formula.junction op neutral operands).Constrains indexing where
  typed := .junction kind fun operand member => (each operand member).typed
  primeFree := .junction fun operand member => (each operand member).primeFree
  versions symbol mentions := by
    obtain ⟨operand, member, mentions⟩ := mentions_of_junction mentions
    exact (each operand member).versions symbol mentions

theorem Plain.versionsUpTo (plain : formula.Plain)
    (result : formula.unfoldAt? indexing = some unfolded) : unfolded.VersionsUpTo indexing := by
  intro symbol mentions
  rw [(unfolds_of_unfoldPrimed? result).eq_rename_current plain.2 plain.1,
    mentions_rename_iff] at mentions
  obtain ⟨name, -, rfl⟩ := mentions
  exact ⟨_, rfl, Nat.le_refl _⟩

theorem constrains_mkEq {var : Variable} {index : UInt32} {value : Formula}
    (typed : value.HasSort var.domain.sort) (primeFree : value.PrimeFree)
    (le : index.toNat ≤ (indexing.get var).toNat) (versions : value.VersionsUpTo indexing) :
    (mkEq (.version var index) value).Constrains indexing where
  typed := .binary ⟨rfl, rfl⟩ (.symbol (.version var index)) typed
  primeFree := (primeFree_binary ..).mpr ⟨primeFree_symbol (.version var index), primeFree⟩
  versions symbol mentions := by
    simp only [mkEq, mkComparison, version, mentions_binary, mentions_symbol] at mentions
    rcases mentions with rfl | inValue
    · exact ⟨index, rfl, le⟩
    · exact versions symbol inValue

end Formula

namespace Lowered

variable {start : Indexing} {lowered : Lowered} {branches : List Lowered}

/-- Constraints on the versions up to the indexing reached, which is not before
the one at the start. -/
structure Follows (start : Indexing) (lowered : Lowered) : Prop where
  constrains : ∀ constraint ∈ lowered.constraints, constraint.Constrains lowered.indexing
  grows : start.UpTo lowered.indexing

private theorem constrains_padding {target : Indexing} {constraint : Formula}
    (member : constraint ∈ lowered.padding target) : constraint.Constrains target := by
  obtain ⟨⟨var, index⟩, entered, padded⟩ := List.mem_filterMap.mp member
  have held : target.get var = index := by
    rw [Indexing.get, (SortedMap.get?_eq_some_iff _ _ _).mpr entered, Option.getD_some]
  simp only at padded
  split at padded
  next earlier =>
    obtain rfl := Option.some.inj padded
    have reached : (lowered.indexing.get var).toNat ≤ (target.get var).toNat := by
      rw [held]
      exact Nat.le_of_lt (UInt32.lt_iff_toNat_lt.mp earlier)
    refine Formula.constrains_mkEq (.symbol (.version var _))
      (Formula.primeFree_symbol (.version var _)) (held ▸ Nat.le_refl _) ?_
    intro symbol mentions
    obtain rfl := (Formula.mentions_symbol _ _).mp mentions
    exact ⟨_, rfl, reached⟩
  next => cases padded

theorem upTo_foldl_join (start : Indexing) (branches : List Lowered) :
    let joined := branches.foldl (fun joined branch => joined.join branch.indexing) start
    start.UpTo joined ∧ ∀ branch ∈ branches, branch.indexing.UpTo joined := by
  induction branches generalizing start with
  | nil => exact ⟨.refl start, by simp⟩
  | cons head rest induction =>
      obtain ⟨grows, each⟩ := induction (start.join head.indexing)
      exact ⟨(Indexing.upTo_join_left _ _).trans grows,
        List.forall_mem_cons.mpr ⟨(Indexing.upTo_join_right _ _).trans grows, each⟩⟩

theorem Follows.merge (each : ∀ branch ∈ branches, branch.Follows start) :
    (Lowered.merge start branches).Follows start := by
  obtain ⟨grows, later⟩ := upTo_foldl_join start branches
  refine ⟨List.forall_mem_singleton.mpr (.junction rfl (List.forall_mem_map.mpr ?_)), grows⟩
  intro branch member
  refine .junction rfl fun constraint inBranch => ?_
  rcases List.mem_append.mp inBranch with own | padded
  · exact ((each branch member).constrains constraint own).mono (later branch member)
  · exact constrains_padding padded

end Lowered

namespace Statement

private theorem follows_lowerSteps {steps : List Statement}
    (each : ∀ step ∈ steps, ∀ (start : Indexing) (lowered : Lowered),
      step.lower? start = some lowered → lowered.Follows start)
    {start : Indexing} {lowered : Lowered} (result : lowerSteps? start steps = some lowered) :
    lowered.Follows start := by
  induction steps generalizing start lowered with
  | nil =>
      obtain rfl := Option.some.inj result
      exact ⟨by simp, .refl start⟩
  | cons head rest induction =>
      obtain ⟨headCase, restCases⟩ := List.forall_mem_cons.mp each
      simp only [lowerSteps?, Option.bind_eq_bind, Option.bind_eq_some_iff, Option.pure_def,
        Option.some.injEq] at result
      obtain ⟨first, loweredHead, second, loweredRest, rfl⟩ := result
      have follows := headCase start first loweredHead
      have later := induction restCases loweredRest
      refine ⟨fun constraint member => ?_, follows.grows.trans later.grows⟩
      rcases List.mem_append.mp member with inFirst | inSecond
      · exact (follows.constrains constraint inFirst).mono later.grows
      · exact later.constrains constraint inSecond

private theorem follows_lowerBranches {branches : List Statement} {start : Indexing}
    (each : ∀ branch ∈ branches, ∀ lowered,
      branch.lower? start = some lowered → Lowered.Follows start lowered)
    {lowered : List Lowered} (result : lowerBranches? start branches = some lowered) :
    ∀ branch ∈ lowered, branch.Follows start := by
  induction branches generalizing lowered with
  | nil =>
      obtain rfl := Option.some.inj result
      simp
  | cons head rest induction =>
      obtain ⟨headCase, restCases⟩ := List.forall_mem_cons.mp each
      simp only [lowerBranches?, Option.bind_eq_bind, Option.bind_eq_some_iff, Option.pure_def,
        Option.some.injEq] at result
      obtain ⟨first, loweredHead, others, loweredRest, rfl⟩ := result
      exact List.forall_mem_cons.mpr ⟨headCase first loweredHead, induction restCases loweredRest⟩

theorem WellTyped.follows_lower {statement : Statement} (wellTyped : statement.WellTyped)
    {start : Indexing} {lowered : Lowered} (result : statement.lower? start = some lowered) :
    lowered.Follows start := by
  induction wellTyped generalizing start lowered with
  | skip =>
      obtain rfl := Option.some.inj result
      exact ⟨by simp, .refl start⟩
  | @assign var value plain typed =>
      simp only [lower?, Option.bind_eq_bind, Option.bind_eq_some_iff, Option.pure_def,
        Option.some.injEq] at result
      obtain ⟨next, advanced, value', unfolded, rfl⟩ := result
      have unfolds := Formula.unfolds_of_unfoldPrimed? unfolded
      have grows := Indexing.upTo_next advanced
      refine ⟨List.forall_mem_singleton.mpr ?_, grows⟩
      exact Formula.constrains_mkEq (unfolds.hasSort ((Formula.inferSort_eq_ok_iff ..).mp typed))
        unfolds.primeFree (Nat.le_refl _) ((plain.versionsUpTo unfolded).mono grows)
  | @assume condition plain boolean =>
      simp only [lower?, Option.bind_eq_bind, Option.bind_eq_some_iff, Option.pure_def,
        Option.some.injEq] at result
      obtain ⟨condition', unfolded, rfl⟩ := result
      have unfolds := Formula.unfolds_of_unfoldPrimed? unfolded
      refine ⟨List.forall_mem_singleton.mpr ⟨?_, unfolds.primeFree, plain.versionsUpTo unfolded⟩,
        .refl start⟩
      exact unfolds.hasSort ((Formula.inferSort_eq_ok_iff ..).mp boolean)
  | havoc var =>
      simp only [lower?, Option.bind_eq_bind, Option.bind_eq_some_iff, Option.pure_def,
        Option.some.injEq] at result
      obtain ⟨next, advanced, rfl⟩ := result
      exact ⟨by simp, Indexing.upTo_next advanced⟩
  | sequence _ stepCases =>
      exact follows_lowerSteps (fun step member start lowered => stepCases step member) result
  | @choice branches _ branchCases =>
      cases branches with
      | nil =>
          obtain rfl := Option.some.inj result
          exact ⟨by simp, .refl start⟩
      | cons first rest =>
          simp only [lower?, Option.bind_eq_bind, Option.bind_eq_some_iff, Option.pure_def,
            Option.some.injEq] at result
          obtain ⟨loweredFirst, firstResult, others, restResult, rfl⟩ := result
          obtain ⟨firstCase, restCases⟩ := List.forall_mem_cons.mp branchCases
          exact .merge (List.forall_mem_cons.mpr ⟨firstCase firstResult,
            follows_lowerBranches (fun branch member lowered => restCases branch member)
              restResult⟩)

end Statement

namespace Action

theorem regular_ofStatement {statement : Statement} {action : Action}
    (wellTyped : statement.WellTyped) (made : ofStatement statement = .ok action) :
    action.Regular := by
  simp only [ofStatement] at made
  split at made
  next => simp at made
  next lowered result =>
    simp only [Outcome.bind_eq_ok_iff, Outcome.mapError_eq_ok_iff, Outcome.pure_eq_ok_iff] at made
    obtain ⟨formula, folded, rfl⟩ := made
    have constrains : lowered.formula.Constrains lowered.indexing :=
      .junction rfl (wellTyped.follows_lower result).constrains
    refine ⟨Formula.hasSort_of_fold folded constrains.typed, Formula.versionFree_of_fold folded, ?_⟩
    intro var primes occurs
    rcases Nat.eq_zero_or_pos primes with rfl | positive
    · exact Nat.zero_le _
    · obtain ⟨index, mentions, rfl⟩ := occurs.of_fold folded constrains.primeFree positive
      obtain ⟨index', same, le⟩ := constrains.versions _ mentions
      obtain ⟨-, rfl⟩ := Symbol.version.inj same
      exact Nat.le_trans (Nat.sub_le _ _) le

def WellFormed (action : Action) : Prop :=
  (∃ formula : Formula, formula.IsBoolean ∧ formula.VersionFree ∧
    ofFormula? formula = some action) ∨
  ∃ statement : Statement, statement.WellTyped ∧ ofStatement statement = .ok action

theorem WellFormed.regular {action : Action} (wellFormed : action.WellFormed) : action.Regular := by
  rcases wellFormed with ⟨formula, boolean, free, made⟩ | ⟨statement, wellTyped, made⟩
  · exact regular_ofFormula boolean free made
  · exact regular_ofStatement wellTyped made

end Action

end SymbolicSafety
