import SymbolicSafety.Proofs.Versions

namespace SymbolicSafety

/-! Folding as a substitution. Each version is replaced by its variable below
as many primes as the version lies after the current one, so folding keeps
sorts, and what a folded formula has below primes says which versions were
there. -/

namespace Formula

mutual

def substitute (place : Symbol → Formula) : Formula → Formula
  | .bool value => .bool value
  | .int value => .int value
  | .symbol name => place name
  | .unary op operand => .unary op (operand.substitute place)
  | .binary op left right => .binary op (left.substitute place) (right.substitute place)
  | .nary op operands => .nary op (substituteAll place operands)
  | .ite condition consequent alternative =>
      .ite (condition.substitute place) (consequent.substitute place)
        (alternative.substitute place)

def substituteAll (place : Symbol → Formula) : List Formula → List Formula
  | [] => []
  | operand :: rest => operand.substitute place :: substituteAll place rest

end

variable {place : Symbol → Formula} {formula : Formula}

@[simp] theorem substituteAll_eq_map (operands : List Formula) :
    substituteAll place operands = operands.map (substitute place) := by
  induction operands with
  | nil => rfl
  | cons head rest induction => rw [substituteAll, induction, List.map_cons]

theorem mentions_substitute_iff (formula : Formula) (symbol : Symbol) :
    (formula.substitute place).Mentions symbol ↔
      ∃ name, formula.Mentions name ∧ (place name).Mentions symbol := by
  induction formula with
  | bool | int => simp [substitute]
  | symbol name => simp [substitute]
  | unary op operand operandCase => simp [substitute, operandCase]
  | binary op left right leftCase rightCase =>
      simp [substitute, leftCase, rightCase, or_and_right, exists_or]
  | nary op operands operandCases =>
      simp only [substitute, substituteAll_eq_map, mentions_nary, List.mem_map]
      constructor
      · rintro ⟨_, ⟨operand, member, rfl⟩, mentions⟩
        obtain ⟨name, mentions, below⟩ := (operandCases operand member).mp mentions
        exact ⟨name, ⟨operand, member, mentions⟩, below⟩
      · rintro ⟨name, ⟨operand, member, mentions⟩, below⟩
        exact ⟨_, ⟨operand, member, rfl⟩, (operandCases operand member).mpr ⟨name, mentions, below⟩⟩
  | ite condition consequent alternative conditionCase consequentCase alternativeCase =>
      simp [substitute, conditionCase, consequentCase, alternativeCase, or_and_right, exists_or]

theorem HasSort.substitute {sort : ValueSort} (typed : formula.HasSort sort)
    (kept : ∀ symbol, (place symbol).HasSort symbol.domain.sort) :
    (formula.substitute place).HasSort sort := by
  induction typed with
  | bool value => exact .bool value
  | int value => exact .int value
  | symbol name => exact kept name
  | prime _ operandCase => exact .prime operandCase
  | not _ operandCase => exact .not operandCase
  | neg _ operandCase => exact .neg operandCase
  | binary sorts _ _ leftCase rightCase => exact .binary sorts leftCase rightCase
  | nary _ operandCases =>
      rw [Formula.substitute, substituteAll_eq_map]
      exact .nary (List.forall_mem_map.mpr operandCases)
  | ite _ _ _ conditionCase consequentCase alternativeCase =>
      exact .ite conditionCase consequentCase alternativeCase

theorem substitute_eq_rename {change : Symbol → Symbol}
    (symbols : ∀ symbol, formula.Mentions symbol → place symbol = .symbol (change symbol)) :
    formula.substitute place = formula.rename change := by
  induction formula with
  | bool | int => rfl
  | symbol name => exact symbols name (by simp)
  | unary op operand operandCase =>
      rw [substitute, rename,
        operandCase fun symbol mentions => symbols symbol (by simpa using mentions)]
  | binary op left right leftCase rightCase =>
      rw [substitute, rename, leftCase fun symbol mentions => symbols symbol (by simp [mentions]),
        rightCase fun symbol mentions => symbols symbol (by simp [mentions])]
  | nary op operands operandCases =>
      have each : operands.map (substitute place) = operands.map (rename change) :=
        List.map_congr_left fun operand member => operandCases operand member
          fun symbol mentions => symbols symbol (.of_child member mentions)
      rw [substitute, rename, substituteAll_eq_map, renameAll_eq_map, each]
  | ite condition consequent alternative conditionCase consequentCase alternativeCase =>
      rw [substitute, rename,
        conditionCase fun symbol mentions => symbols symbol (by simp [mentions]),
        consequentCase fun symbol mentions => symbols symbol (by simp [mentions]),
        alternativeCase fun symbol mentions => symbols symbol (by simp [mentions])]

theorem OccursUnder.of_substitute {var : Variable} {primes : Nat} (free : formula.PrimeFree)
    (occurs : OccursUnder var primes (formula.substitute place)) :
    ∃ symbol, formula.Mentions symbol ∧ OccursUnder var primes (place symbol) := by
  induction formula with
  | bool | int =>
      cases occurs with
      | within _ member => simp [substitute, children] at member
  | symbol name => exact ⟨name, by simp, occurs⟩
  | unary op operand operandCase =>
      cases occurs with
      | prime => exact absurd free (not_primeFree_prime operand)
      | within _ member occurs =>
          obtain rfl := List.mem_singleton.mp member
          simpa using operandCase (free.child (by simp [children])) occurs
  | binary op left right leftCase rightCase =>
      cases occurs with
      | within _ member occurs =>
          simp only [substitute, children, List.mem_cons, List.not_mem_nil, or_false] at member
          rcases member with rfl | rfl
          · obtain ⟨symbol, mentions, below⟩ := leftCase (free.child (by simp [children])) occurs
            exact ⟨symbol, by simp [mentions], below⟩
          · obtain ⟨symbol, mentions, below⟩ := rightCase (free.child (by simp [children])) occurs
            exact ⟨symbol, by simp [mentions], below⟩
  | nary op operands operandCases =>
      cases occurs with
      | within _ member occurs =>
          simp only [substitute, children, substituteAll_eq_map, List.mem_map] at member
          obtain ⟨operand, inOperands, rfl⟩ := member
          obtain ⟨symbol, mentions, below⟩ :=
            operandCases operand inOperands (free.child inOperands) occurs
          exact ⟨symbol, .of_child inOperands mentions, below⟩
  | ite condition consequent alternative conditionCase consequentCase alternativeCase =>
      cases occurs with
      | within _ member occurs =>
          simp only [substitute, children, List.mem_cons, List.not_mem_nil, or_false] at member
          rcases member with rfl | rfl | rfl
          · obtain ⟨symbol, mentions, below⟩ :=
              conditionCase (free.child (by simp [children])) occurs
            exact ⟨symbol, by simp [mentions], below⟩
          · obtain ⟨symbol, mentions, below⟩ :=
              consequentCase (free.child (by simp [children])) occurs
            exact ⟨symbol, by simp [mentions], below⟩
          · obtain ⟨symbol, mentions, below⟩ :=
              alternativeCase (free.child (by simp [children])) occurs
            exact ⟨symbol, by simp [mentions], below⟩

/-! ## Variables below a number of primes -/

theorem mentions_primedTimes_iff (var : Variable) (primes : Nat) (symbol : Symbol) :
    (primedTimes var primes).Mentions symbol ↔ symbol = .current var := by
  induction primes with
  | zero => simp [primedTimes, current]
  | succ primes induction => simpa [primedTimes] using induction

theorem hasSort_primedTimes (var : Variable) (primes : Nat) :
    (primedTimes var primes).HasSort var.domain.sort := by
  induction primes with
  | zero => exact .symbol (.current var)
  | succ primes induction => exact .prime induction

theorem OccursUnder.of_primedTimes {var other : Variable} {primes below : Nat}
    (occurs : OccursUnder other below (primedTimes var primes)) : other = var ∧ below = primes := by
  induction primes generalizing below with
  | zero =>
      cases occurs with
      | here => exact ⟨rfl, rfl⟩
      | within _ member => simp [primedTimes, current, children] at member
  | succ primes induction =>
      cases occurs with
      | prime occurs =>
          obtain ⟨same, rfl⟩ := induction occurs
          exact ⟨same, rfl⟩
      | within notPrime => exact absurd rfl (notPrime _)

/-! ## Folding -/

def unversioned (indexing : Indexing) : Symbol → Formula
  | .current var => .current var
  | .version var index => primedTimes var (index.toNat - (indexing.get var).toNat)

variable {indexing : Indexing} {folded : Formula} {fault : NegativePrime}

private theorem foldNode_symbol {name : Symbol}
    (result : foldNode indexing (.symbol name) = .ok folded) :
    folded = unversioned indexing name := by
  cases name with
  | current var => exact (Except.ok.inj result).symm
  | version var index =>
      simp only [foldNode, Version.sub?] at result
      by_cases enough : indexing.get var ≤ index
      · rw [if_pos enough] at result
        rw [← Except.ok.inj result, unversioned, UInt32.toNat_sub_of_le index _ enough]
      · rw [if_neg enough] at result
        cases result

private theorem transformAllM_eq_map {operands results : List Formula}
    (each : ∀ operand ∈ operands, ∀ result, operand.fold indexing = .ok result →
      result = operand.substitute (unversioned indexing))
    (result : transformAllM (foldNode indexing) operands = .ok results) :
    results = operands.map (substitute (unversioned indexing)) := by
  induction operands generalizing results with
  | nil => exact (Except.ok.inj result).symm
  | cons head rest induction =>
      simp only [transformAllM, Outcome.bind_eq_ok_iff, Outcome.pure_eq_ok_iff] at result
      obtain ⟨first, foldedHead, others, foldedRest, rfl⟩ := result
      obtain ⟨headCase, restCases⟩ := List.forall_mem_cons.mp each
      rw [List.map_cons, headCase first foldedHead, induction restCases foldedRest]

theorem eq_substitute_of_fold (result : formula.fold indexing = .ok folded) :
    folded = formula.substitute (unversioned indexing) := by
  induction formula generalizing folded with
  | bool | int => exact (Except.ok.inj result).symm
  | symbol name => exact foldNode_symbol result
  | unary op operand operandCase =>
      simp only [fold, transformM, Outcome.bind_eq_ok_iff, foldNode, Except.ok.injEq] at result
      obtain ⟨operand', found, rfl⟩ := result
      rw [substitute, operandCase found]
  | binary op left right leftCase rightCase =>
      simp only [fold, transformM, Outcome.bind_eq_ok_iff, foldNode, Except.ok.injEq] at result
      obtain ⟨left', foundLeft, right', foundRight, rfl⟩ := result
      rw [substitute, leftCase foundLeft, rightCase foundRight]
  | nary op operands operandCases =>
      simp only [fold, transformM, Outcome.bind_eq_ok_iff, foldNode, Except.ok.injEq] at result
      obtain ⟨operands', found, rfl⟩ := result
      rw [substitute, substituteAll_eq_map,
        transformAllM_eq_map (fun operand member result => operandCases operand member) found]
  | ite condition consequent alternative conditionCase consequentCase alternativeCase =>
      simp only [fold, transformM, Outcome.bind_eq_ok_iff, foldNode, Except.ok.injEq] at result
      obtain ⟨condition', foundCondition, consequent', foundConsequent, alternative',
        foundAlternative, rfl⟩ := result
      rw [substitute, conditionCase foundCondition, consequentCase foundConsequent,
        alternativeCase foundAlternative]

private theorem exists_of_transformAllM_error {operands : List Formula}
    (failed : transformAllM (foldNode indexing) operands = .error fault) :
    ∃ operand ∈ operands, operand.fold indexing = .error fault := by
  induction operands with
  | nil => cases failed
  | cons head rest induction =>
      rw [transformAllM, Outcome.bind_eq_error_iff] at failed
      rcases failed with failed | ⟨first, -, failed⟩
      · exact ⟨head, by simp, failed⟩
      · rcases (Outcome.bind_eq_error_iff ..).mp failed with failed | ⟨others, -, failed⟩
        · obtain ⟨operand, member, failed⟩ := induction failed
          exact ⟨operand, .tail head member, failed⟩
        · cases failed

private theorem fold_error_cases (failed : formula.fold indexing = .error fault) :
    (formula = .symbol (.version fault.var fault.index) ∧
      fault.base = indexing.get fault.var ∧ fault.index < fault.base) ∨
      ∃ child ∈ formula.children, child.fold indexing = .error fault := by
  cases formula with
  | bool | int => cases failed
  | symbol name =>
      cases name with
      | current var => cases failed
      | version var index =>
          by_cases reached : indexing.get var ≤ index
          · simp [fold, transformM, foldNode, Version.sub?, reached] at failed
          · obtain rfl : ⟨var, index, indexing.get var⟩ = fault := by
              simpa [fold, transformM, foldNode, Version.sub?, reached] using failed
            exact .inl ⟨rfl, rfl, UInt32.not_le.mp reached⟩
  | unary op operand =>
      rw [fold, transformM, Outcome.bind_eq_error_iff] at failed
      rcases failed with failed | ⟨operand', -, failed⟩
      · exact .inr ⟨operand, by simp [children], failed⟩
      · cases failed
  | binary op left right =>
      simp only [fold, transformM, Outcome.bind_eq_error_iff] at failed
      rcases failed with failed | ⟨left', -, failed | ⟨right', -, failed⟩⟩
      · exact .inr ⟨left, by simp [children], failed⟩
      · exact .inr ⟨right, by simp [children], failed⟩
      · cases failed
  | nary op operands =>
      rw [fold, transformM, Outcome.bind_eq_error_iff] at failed
      rcases failed with failed | ⟨operands', -, failed⟩
      · exact .inr (exists_of_transformAllM_error failed)
      · cases failed
  | ite condition consequent alternative =>
      simp only [fold, transformM, Outcome.bind_eq_error_iff] at failed
      rcases failed with failed | ⟨condition', -, failed | ⟨consequent', -, failed |
        ⟨alternative', -, failed⟩⟩⟩
      · exact .inr ⟨condition, by simp [children], failed⟩
      · exact .inr ⟨consequent, by simp [children], failed⟩
      · exact .inr ⟨alternative, by simp [children], failed⟩
      · cases failed

theorem mentions_of_fold_error (failed : formula.fold indexing = .error fault) :
    formula.Mentions (.version fault.var fault.index) ∧
      fault.base = indexing.get fault.var ∧ fault.index < fault.base := by
  induction formula using inductOnChildren with
  | step formula childCases =>
      rcases fold_error_cases failed with ⟨rfl, early⟩ | ⟨child, member, failed⟩
      · exact ⟨.here, early⟩
      · obtain ⟨mentions, early⟩ := childCases child member failed
        exact ⟨mentions.of_child member, early⟩

theorem exists_fold
    (later : ∀ var index, formula.Mentions (.version var index) → indexing.get var ≤ index) :
    ∃ folded, formula.fold indexing = .ok folded := by
  cases result : formula.fold indexing with
  | ok folded => exact ⟨folded, rfl⟩
  | error fault =>
      obtain ⟨mentions, base, early⟩ := mentions_of_fold_error result
      exact absurd (later _ _ mentions) (UInt32.not_le.mpr (base ▸ early))

private theorem exists_of_transformAllM {operands results : List Formula}
    (result : transformAllM (foldNode indexing) operands = .ok results) :
    ∀ operand ∈ operands, ∃ folded, operand.fold indexing = .ok folded := by
  induction operands generalizing results with
  | nil => simp
  | cons head rest induction =>
      simp only [transformAllM, Outcome.bind_eq_ok_iff] at result
      obtain ⟨first, foldedHead, others, foldedRest, -⟩ := result
      exact List.forall_mem_cons.mpr ⟨⟨first, foldedHead⟩, induction foldedRest⟩

private theorem exists_fold_child (result : formula.fold indexing = .ok folded) {child : Formula}
    (member : child ∈ formula.children) : ∃ folded, child.fold indexing = .ok folded := by
  cases formula with
  | bool | int | symbol => cases member
  | unary op operand =>
      simp only [fold, transformM, Outcome.bind_eq_ok_iff] at result
      obtain ⟨operand', found, -⟩ := result
      obtain rfl := List.mem_singleton.mp member
      exact ⟨operand', found⟩
  | binary op left right =>
      simp only [fold, transformM, Outcome.bind_eq_ok_iff] at result
      obtain ⟨left', foundLeft, right', foundRight, -⟩ := result
      simp only [children, List.mem_cons, List.not_mem_nil, or_false] at member
      rcases member with rfl | rfl
      · exact ⟨left', foundLeft⟩
      · exact ⟨right', foundRight⟩
  | nary op operands =>
      simp only [fold, transformM, Outcome.bind_eq_ok_iff] at result
      obtain ⟨operands', found, -⟩ := result
      exact exists_of_transformAllM found child member
  | ite condition consequent alternative =>
      simp only [fold, transformM, Outcome.bind_eq_ok_iff] at result
      obtain ⟨condition', foundCondition, consequent', foundConsequent, alternative',
        foundAlternative, -⟩ := result
      simp only [children, List.mem_cons, List.not_mem_nil, or_false] at member
      rcases member with rfl | rfl | rfl
      · exact ⟨condition', foundCondition⟩
      · exact ⟨consequent', foundConsequent⟩
      · exact ⟨alternative', foundAlternative⟩

theorem le_of_fold (result : formula.fold indexing = .ok folded) {var : Variable} {index : UInt32}
    (mentions : formula.Mentions (.version var index)) : indexing.get var ≤ index := by
  induction mentions generalizing folded with
  | here =>
      by_cases reached : indexing.get var ≤ index
      · exact reached
      · simp [fold, transformM, foldNode, Version.sub?, reached] at result
  | within member _ induction =>
      obtain ⟨_, found⟩ := exists_fold_child result member
      exact induction found

theorem versionFree_of_fold (result : formula.fold indexing = .ok folded) : folded.VersionFree := by
  intro var index mentions
  rw [eq_substitute_of_fold result, mentions_substitute_iff] at mentions
  obtain ⟨name, -, mentions⟩ := mentions
  cases name with
  | current => simp [unversioned, current] at mentions
  | version => simp [unversioned, mentions_primedTimes_iff] at mentions

theorem hasSort_of_fold (result : formula.fold indexing = .ok folded) {sort : ValueSort}
    (typed : formula.HasSort sort) : folded.HasSort sort := by
  rw [eq_substitute_of_fold result]
  refine typed.substitute fun symbol => ?_
  cases symbol with
  | current var => exact .symbol (.current var)
  | version var index => exact hasSort_primedTimes var _

theorem OccursUnder.of_fold (result : formula.fold indexing = .ok folded)
    (free : formula.PrimeFree) {var : Variable} {primes : Nat} (positive : 0 < primes)
    (occurs : OccursUnder var primes folded) :
    ∃ index, formula.Mentions (.version var index) ∧
      primes = index.toNat - (indexing.get var).toNat := by
  rw [eq_substitute_of_fold result] at occurs
  obtain ⟨symbol, mentions, below⟩ := occurs.of_substitute free
  cases symbol with
  | current other =>
      have unprimed : OccursUnder var primes (primedTimes other 0) := below
      obtain ⟨-, rfl⟩ := unprimed.of_primedTimes
      exact absurd positive (Nat.lt_irrefl 0)
  | version other index =>
      obtain ⟨rfl, rfl⟩ := OccursUnder.of_primedTimes below
      exact ⟨index, mentions, rfl⟩

theorem unfoldPrimed?_primedTimes {var : Variable} {index : UInt32} {primes below : Nat}
    (reached : index.toNat = (indexing.get var).toNat + primes + below) :
    (primedTimes var below).unfoldPrimed? indexing primes = some (.version var index) := by
  induction below generalizing primes with
  | zero =>
      have found : Version.ofNat? ((indexing.get var).toNat + primes) = some index :=
        (Version.ofNat?_eq_some_iff _ _).mpr reached
      rw [primedTimes, current, unfoldPrimed?, found]
      rfl
  | succ below induction =>
      rw [primedTimes, unfoldPrimed?]
      exact induction (by omega)

private theorem unfoldAll?_substituteAll {change : Symbol → Symbol} {operands : List Formula}
    (each : ∀ operand ∈ operands,
      (operand.substitute place).unfoldAt? indexing = some (operand.rename change)) :
    unfoldAll? indexing 0 (substituteAll place operands) = some (renameAll change operands) := by
  induction operands with
  | nil => rfl
  | cons head rest induction =>
      obtain ⟨headCase, restCases⟩ := List.forall_mem_cons.mp each
      simp only [unfoldAt?] at headCase
      rw [substituteAll, unfoldAll?, headCase, induction restCases]
      rfl

theorem unfoldAt?_substitute {change : Symbol → Symbol} (free : formula.PrimeFree)
    (single : ∀ symbol, formula.Mentions symbol →
      (place symbol).unfoldAt? indexing = some (.symbol (change symbol))) :
    (formula.substitute place).unfoldAt? indexing = some (formula.rename change) := by
  induction formula with
  | bool | int => rfl
  | symbol name => exact single name .here
  | unary op operand operandCase =>
      have inner := operandCase (free.child (by simp [children])) fun symbol mentions =>
        single symbol (by simpa using mentions)
      simp only [unfoldAt?] at inner
      cases op with
      | prime => exact absurd free (not_primeFree_prime operand)
      | not | neg => simp [substitute, unfoldAt?, unfoldPrimed?, rename, inner]
  | binary op left right leftCase rightCase =>
      have innerLeft := leftCase (free.child (by simp [children])) fun symbol mentions =>
        single symbol (by simp [mentions])
      have innerRight := rightCase (free.child (by simp [children])) fun symbol mentions =>
        single symbol (by simp [mentions])
      simp only [unfoldAt?] at innerLeft innerRight
      simp [substitute, unfoldAt?, unfoldPrimed?, rename, innerLeft, innerRight]
  | nary op operands operandCases =>
      have all := unfoldAll?_substituteAll fun operand member =>
        operandCases operand member (free.child member) fun symbol mentions =>
          single symbol (mentions.of_child member)
      rw [substitute, unfoldAt?, unfoldPrimed?, all]
      rfl
  | ite condition consequent alternative conditionCase consequentCase alternativeCase =>
      have first := conditionCase (free.child (by simp [children])) fun symbol mentions =>
        single symbol (by simp [mentions])
      have second := consequentCase (free.child (by simp [children])) fun symbol mentions =>
        single symbol (by simp [mentions])
      have third := alternativeCase (free.child (by simp [children])) fun symbol mentions =>
        single symbol (by simp [mentions])
      simp only [unfoldAt?] at first second third
      simp [substitute, unfoldAt?, unfoldPrimed?, rename, first, second, third]

/-- A folded formula unfolds like the formula, if that has no primes. -/
theorem unfoldAt?_fold (result : formula.fold indexing = .ok folded) (free : formula.PrimeFree) :
    folded.unfoldAt? indexing = formula.unfoldAt? indexing := by
  rw [eq_substitute_of_fold result, unfoldAt?_eq_rename free]
  refine unfoldAt?_substitute free fun symbol mentions => ?_
  cases symbol with
  | current var =>
      have plain : (primedTimes var 0).unfoldPrimed? indexing 0 =
          some (.version var (indexing.get var)) := unfoldPrimed?_primedTimes rfl
      exact plain
  | version var index =>
      have reached := UInt32.le_iff_toNat_le.mp (le_of_fold result mentions)
      exact unfoldPrimed?_primedTimes (by omega)

theorem unfoldAt?_of_fold (result : formula.fold indexing = .ok folded) (free : formula.PrimeFree)
    (versions : ∀ symbol, formula.Mentions symbol → ∃ index, symbol = .version symbol.var index) :
    folded.unfoldAt? indexing = some formula :=
  (unfoldAt?_fold result free).trans (unfoldAt?_eq_self free versions)

theorem eq_rename_of_fold
    (versions : ∀ symbol, formula.Mentions symbol →
      symbol = .version symbol.var (indexing.get symbol.var))
    (foldedAt : formula.fold indexing = .ok folded) :
    folded = formula.rename fun symbol => .current symbol.var := by
  rw [eq_substitute_of_fold foldedAt]
  refine substitute_eq_rename fun symbol mentions => ?_
  rw [versions symbol mentions]
  simp [unversioned, Symbol.var, primedTimes, current]

/-- A formula about the versions of one indexing, folded there and unfolded at
another one, is about the versions of the other one. -/
theorem eq_rename_of_fold_unfold {other : Indexing} {unfolded : Formula}
    (versions : ∀ symbol, formula.Mentions symbol →
      symbol = .version symbol.var (indexing.get symbol.var))
    (foldedAt : formula.fold indexing = .ok folded)
    (unfoldedAt : folded.unfoldAt? other = some unfolded) (free : formula.PrimeFree) :
    unfolded = formula.rename fun symbol => .version symbol.var (other.get symbol.var) := by
  have plain := eq_rename_of_fold versions foldedAt
  have primeFree : folded.PrimeFree := plain ▸ free.rename
  rw [(unfolds_of_unfoldPrimed? unfoldedAt).eq_rename_current (versionFree_of_fold foldedAt)
    primeFree, plain, rename_rename]
  rfl

end Formula

end SymbolicSafety
