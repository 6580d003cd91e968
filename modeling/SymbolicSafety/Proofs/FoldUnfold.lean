import SymbolicSafety.Proofs.Folding

namespace SymbolicSafety

/-! Folding and unfolding undo each other. Folding fails only at a version that
lies before the current one. A folded formula unfolds like the formula, and an
unfolded formula folds into the formula with its primes on the variables. -/

namespace Formula

variable {formula unfolded : Formula} {indexing : Indexing} {primes : Nat}

theorem exists_fold_error_iff : (∃ fault, formula.fold indexing = .error fault) ↔
    ∃ var index, formula.Mentions (.version var index) ∧ index < indexing.get var := by
  constructor
  · rintro ⟨fault, failed⟩
    obtain ⟨mentions, base, early⟩ := mentions_of_fold_error failed
    exact ⟨fault.var, fault.index, mentions, base ▸ early⟩
  · rintro ⟨var, index, mentions, early⟩
    cases result : formula.fold indexing with
    | error fault => exact ⟨fault, rfl⟩
    | ok folded => exact absurd early (UInt32.not_lt.mpr (le_of_fold result mentions))

/-! ## Primes on variables -/

mutual

/-- Move all primes, and `primes` more, down onto the variables below them. -/
def sinkPrimes (primes : Nat) : Formula → Formula
  | .bool value => .bool value
  | .int value => .int value
  | .symbol (.current var) => primedTimes var primes
  | .symbol (.version var index) => .symbol (.version var index)
  | .unary .prime operand => operand.sinkPrimes (primes + 1)
  | .unary op operand => .unary op (operand.sinkPrimes primes)
  | .binary op left right => .binary op (left.sinkPrimes primes) (right.sinkPrimes primes)
  | .nary op operands => .nary op (sinkAll primes operands)
  | .ite condition consequent alternative =>
      .ite (condition.sinkPrimes primes) (consequent.sinkPrimes primes)
        (alternative.sinkPrimes primes)

def sinkAll (primes : Nat) : List Formula → List Formula
  | [] => []
  | operand :: rest => operand.sinkPrimes primes :: sinkAll primes rest

end

theorem sinkAll_eq_map (operands : List Formula) :
    sinkAll primes operands = operands.map (sinkPrimes primes) := by
  induction operands with
  | nil => rfl
  | cons head rest induction => rw [sinkAll, induction, List.map_cons]

/-- Primes stand only over variables, each over any number of further primes. -/
def PrimesVariables (formula : Formula) : Prop :=
  ∀ operand, Occurs (.unary .prime operand) formula →
    ∃ var primes, operand = primedTimes var primes

theorem PrimesVariables.child {child : Formula} (simple : formula.PrimesVariables)
    (member : child ∈ formula.children) : child.PrimesVariables :=
  fun operand occurs => simple operand (.within member occurs)

theorem primesVariables_of_children (root : ∀ operand, formula ≠ .unary .prime operand)
    (each : ∀ child ∈ formula.children, child.PrimesVariables) : formula.PrimesVariables := by
  intro operand occurs
  rcases (occurs_iff _ _).mp occurs with equal | ⟨child, member, below⟩
  · exact absurd equal.symm (root operand)
  · exact each child member operand below

theorem primesVariables_primedTimes (var : Variable) (primes : Nat) :
    (primedTimes var primes).PrimesVariables := by
  induction primes with
  | zero =>
      exact primesVariables_of_children (by simp [primedTimes, current])
        (by simp [primedTimes, current, children])
  | succ primes induction =>
      intro operand occurs
      rcases (occurs_iff _ _).mp occurs with equal | ⟨child, member, below⟩
      · exact ⟨var, primes, (Formula.unary.inj equal).2⟩
      · obtain rfl : child = primedTimes var primes := List.mem_singleton.mp member
        exact induction operand below

theorem primesVariables_sinkPrimes (formula : Formula) (primes : Nat) :
    (formula.sinkPrimes primes).PrimesVariables := by
  induction formula generalizing primes with
  | bool | int =>
      exact primesVariables_of_children (by simp [sinkPrimes]) (by simp [sinkPrimes, children])
  | symbol name =>
      cases name with
      | current var => exact primesVariables_primedTimes var primes
      | version =>
          exact primesVariables_of_children (by simp [sinkPrimes]) (by simp [sinkPrimes, children])
  | unary op operand operandCase =>
      cases op with
      | prime => exact operandCase (primes + 1)
      | not | neg =>
          exact primesVariables_of_children (by simp [sinkPrimes])
            (by simpa [sinkPrimes, children] using operandCase primes)
  | binary op left right leftCase rightCase =>
      exact primesVariables_of_children (by simp [sinkPrimes])
        (by simpa [sinkPrimes, children] using ⟨leftCase primes, rightCase primes⟩)
  | nary op operands operandCases =>
      exact primesVariables_of_children (by simp [sinkPrimes])
        (by simpa [sinkPrimes, sinkAll_eq_map, children] using
          fun operand member => operandCases operand member primes)
  | ite condition consequent alternative conditionCase consequentCase alternativeCase =>
      exact primesVariables_of_children (by simp [sinkPrimes])
        (by simpa [sinkPrimes, children] using
          ⟨conditionCase primes, consequentCase primes, alternativeCase primes⟩)

theorem sinkPrimes_primedTimes (var : Variable) (primes below : Nat) :
    (primedTimes var below).sinkPrimes primes = primedTimes var (primes + below) := by
  induction below generalizing primes with
  | zero => rfl
  | succ below induction => rw [primedTimes, sinkPrimes, induction, Nat.succ_add_eq_add_succ]

theorem sinkPrimes_eq_self (simple : formula.PrimesVariables) : formula.sinkPrimes 0 = formula := by
  induction formula with
  | bool | int => rfl
  | symbol name => cases name <;> rfl
  | unary op operand operandCase =>
      cases op with
      | prime =>
          -- The operand is no case for induction: below this prime nothing sinks from zero.
          obtain ⟨var, primes, rfl⟩ := simple operand .here
          rw [sinkPrimes, sinkPrimes_primedTimes, Nat.add_comm]
          rfl
      | not | neg => simp [sinkPrimes, operandCase (simple.child (by simp [children]))]
  | binary op left right leftCase rightCase =>
      rw [sinkPrimes, leftCase (simple.child (by simp [children])),
        rightCase (simple.child (by simp [children]))]
  | nary op operands operandCases =>
      have each : operands.map (sinkPrimes 0) = operands.map id :=
        List.map_congr_left fun operand member => operandCases operand member (simple.child member)
      rw [sinkPrimes, sinkAll_eq_map, each, List.map_id]
  | ite condition consequent alternative conditionCase consequentCase alternativeCase =>
      rw [sinkPrimes, conditionCase (simple.child (by simp [children])),
        consequentCase (simple.child (by simp [children])),
        alternativeCase (simple.child (by simp [children]))]

/-! ## Folding what was unfolded -/

theorem Unfolds.substitute_unversioned (unfolds : Unfolds indexing primes formula unfolded)
    (free : formula.VersionFree) :
    unfolded.substitute (unversioned indexing) = formula.sinkPrimes primes := by
  induction unfolds with
  | bool | int => rfl
  | @current primes var index number =>
      rw [substitute, unversioned, sinkPrimes, number, Nat.add_sub_cancel_left]
  | version primes var index => exact absurd .here (free var index)
  | prime _ operandCase => exact operandCase (free.child (by simp [children]))
  | @unary primes op operand unfolded notPrime _ operandCase =>
      have inner := operandCase (free.child (by simp [children]))
      cases op with
      | prime => exact absurd rfl notPrime
      | not | neg => simp only [substitute, sinkPrimes, inner]
  | binary _ _ leftCase rightCase =>
      rw [substitute, sinkPrimes, leftCase (free.child (by simp [children])),
        rightCase (free.child (by simp [children]))]
  | nary length _ operandCases =>
      rw [substitute, sinkPrimes, substituteAll_eq_map, sinkAll_eq_map]
      refine congrArg _ (map_eq_map_of_places length.symm ?_)
      intro place operand' operand found' found
      exact operandCases place operand operand' found found'
        (free.child (List.mem_of_getElem? found))
  | ite _ _ _ conditionCase consequentCase alternativeCase =>
      rw [substitute, sinkPrimes, conditionCase (free.child (by simp [children])),
        consequentCase (free.child (by simp [children])),
        alternativeCase (free.child (by simp [children]))]

theorem fold_of_unfoldAt? (result : formula.unfoldAt? indexing = some unfolded)
    (free : formula.VersionFree) : unfolded.fold indexing = .ok (formula.sinkPrimes 0) := by
  have unfolds := unfolds_of_unfoldPrimed? result
  obtain ⟨folded, found⟩ : ∃ folded, unfolded.fold indexing = .ok folded := by
    -- Primes only lead to later versions, so none of them lies before the current one.
    refine exists_fold fun var index mentions => ?_
    obtain ⟨below, -, reached, same, number⟩ := unfolds.mentions free mentions
    obtain rfl : index = reached := (Symbol.version.inj same).2
    rw [UInt32.le_iff_toNat_le, number, Nat.add_assoc]
    exact Nat.le_add_right ..
  rw [found, eq_substitute_of_fold found, unfolds.substitute_unversioned free]

/-- Folding fails exactly at versions before the current ones. Without primes,
a folded formula unfolds like the formula, and into the formula if that is about
versions only. Without versions, an unfolded formula folds into the formula with
its primes on the variables, and so into the formula if they are there already. -/
theorem fold_unfold_inverse (formula : Formula) (indexing : Indexing) :
    ((∃ fault, formula.fold indexing = .error fault) ↔
      ∃ var index, formula.Mentions (.version var index) ∧ index < indexing.get var) ∧
    (∀ fault, formula.fold indexing = .error fault →
      formula.Mentions (.version fault.var fault.index) ∧
        fault.base = indexing.get fault.var ∧ fault.index < fault.base) ∧
    (∀ folded, formula.PrimeFree → formula.fold indexing = .ok folded →
      ∃ unfolded, formula.unfoldAt? indexing = some unfolded ∧
        folded.unfoldAt? indexing = some unfolded ∧
        ((∀ var, ¬ formula.Mentions (.current var)) → unfolded = formula)) ∧
    (formula.VersionFree →
      (∀ var primes, OccursUnder var primes formula →
        (indexing.get var).toNat + primes < UInt32.size) →
      ∃ unfolded, formula.unfoldAt? indexing = some unfolded ∧
        unfolded.fold indexing = .ok (formula.sinkPrimes 0) ∧
        (formula.sinkPrimes 0).PrimesVariables ∧
        (formula.PrimesVariables → formula.sinkPrimes 0 = formula)) := by
  refine ⟨exists_fold_error_iff, fun fault => mentions_of_fold_error,
    fun folded free result => ?_, fun free fits => ?_⟩
  · obtain ⟨unfolded, found⟩ := exists_unfoldAt? free indexing
    refine ⟨unfolded, found, (unfoldAt?_fold result free).trans found, fun unplain => ?_⟩
    have versions (symbol : Symbol) (mentions : formula.Mentions symbol) :
        ∃ index, symbol = .version symbol.var index := by
      cases symbol with
      | current var => exact absurd mentions (unplain var)
      | version var index => exact ⟨index, rfl⟩
    exact Option.some.inj (found.symm.trans (unfoldAt?_eq_self free versions))
  · obtain ⟨unfolded, found⟩ : ∃ unfolded, formula.unfoldAt? indexing = some unfolded :=
      exists_unfoldPrimed? fits
    exact ⟨unfolded, found, fold_of_unfoldAt? found free, primesVariables_sinkPrimes formula 0,
      sinkPrimes_eq_self⟩

namespace Growing

def counter : Variable := ⟨0, "x", .int⟩

def grows : Formula :=
  .binary .lt (.current counter) (.unary .prime (.nary .add [.current counter, .int 1]))

def sunk : Formula :=
  .binary .lt (.current counter) (.nary .add [.unary .prime (.current counter), .int 1])

def versions : Formula :=
  .binary .lt (.version counter 6) (.nary .add [.version counter 7, .int 1])

def sixth : Indexing := (Indexing.all 4).set counter 6

private theorem below_grows {var : Variable} (occurs : OccursUnder var primes grows) :
    var = counter ∧ primes ≤ 1 := by
  have plain {primes : Nat} (occurs : OccursUnder var primes (primedTimes counter 0)) :=
    occurs.of_primedTimes
  cases occurs with
  | within _ member occurs =>
      simp only [grows, children, List.mem_cons, List.not_mem_nil, or_false] at member
      rcases member with rfl | rfl
      · obtain ⟨same, rfl⟩ := plain occurs
        exact ⟨same, Nat.zero_le 1⟩
      · cases occurs with
        | within notPrime => exact absurd rfl (notPrime _)
        | prime occurs =>
            cases occurs with
            | within _ member occurs =>
                simp only [children, List.mem_cons, List.not_mem_nil, or_false] at member
                rcases member with rfl | rfl
                · obtain ⟨same, rfl⟩ := plain occurs
                  exact ⟨same, Nat.le_refl 1⟩
                · cases occurs with
                  | within _ member => cases member

theorem fold_unfold_inverse_grows :
    (versions.PrimeFree ∧ (∀ var, ¬ versions.Mentions (.current var)) ∧
      versions.fold sixth = .ok sunk ∧ sunk.unfoldAt? sixth = some versions) ∧
    (grows.VersionFree ∧ ∃ unfolded, grows.unfoldAt? sixth = some unfolded ∧
      unfolded.fold sixth = .ok sunk ∧ sunk.PrimesVariables) ∧
    ∃ fault, (Formula.version counter 5).fold sixth = .error fault := by
  have reached : sixth.get counter = 6 := by simp [sixth, Indexing.get_set]
  have free : versions.PrimeFree := by simp [versions, version]
  have unplain (var : Variable) : ¬ versions.Mentions (.current var) := by simp [versions, version]
  have folds : versions.fold sixth = .ok sunk := rfl
  have unversioned : grows.VersionFree := fun var index => by simp [grows, current]
  refine ⟨⟨free, unplain, folds, ?_⟩, ⟨unversioned, ?_⟩, ?_⟩
  · obtain ⟨unfolded, -, found, same⟩ := (fold_unfold_inverse versions sixth).2.2.1 sunk free folds
    rw [found, same unplain]
  · have fits (var : Variable) (primes : Nat) (occurs : OccursUnder var primes grows) :
        (sixth.get var).toNat + primes < UInt32.size := by
      obtain ⟨rfl, few⟩ := below_grows occurs
      rw [reached]
      exact Nat.lt_of_le_of_lt (Nat.add_le_add_left few _) (by decide)
    obtain ⟨unfolded, found, folds, simple, -⟩ :=
      (fold_unfold_inverse grows sixth).2.2.2 unversioned fits
    exact ⟨unfolded, found, folds, simple⟩
  · exact (fold_unfold_inverse _ sixth).1.mpr ⟨counter, 5, .here, by rw [reached]; decide⟩

end Growing

end Formula

end SymbolicSafety
