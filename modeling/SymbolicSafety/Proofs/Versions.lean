import SymbolicSafety.Proofs.Renaming
import SymbolicSafety.System.Action

namespace SymbolicSafety

/-! Versions of variables. Unfolding a formula at an indexing turns each
variable into the version that many primes after the current one; unfolding at
another indexing gives the same formula with its versions shifted. -/

theorem Version.ofNat?_eq_some_iff (number : Nat) (version : UInt32) :
    Version.ofNat? number = some version ↔ version.toNat = number := by
  unfold Version.ofNat?
  split
  next fits =>
    rw [Option.some.injEq]
    constructor
    · rintro rfl
      exact UInt32.toNat_ofNat_of_lt' fits
    · rintro rfl
      exact UInt32.ofNat_toNat
  next large =>
    simp only [reduceCtorEq, false_iff]
    rintro rfl
    exact large version.toNat_lt

theorem Version.ofInt?_eq_some_iff (number : Int) (version : UInt32) :
    Version.ofInt? number = some version ↔ (version.toNat : Int) = number := by
  unfold Version.ofInt?
  split
  · rw [Version.ofNat?_eq_some_iff]
    omega
  next negative =>
    simp only [reduceCtorEq, false_iff]
    omega

namespace Indexing

variable {left right result : Indexing}

/-! ## Versions in an indexing -/

theorem get_normalized (default : UInt32) (entries : SortedMap Variable UInt32) (var : Variable) :
    (normalized default entries).get var = (entries.get? var).getD default := by
  simp only [get, normalized, SortedMap.get?_filter]
  cases entries.get? var with
  | none => rfl
  | some index => by_cases same : index = default <;> simp [Option.filter_some, same]

@[simp] theorem get_all (index : UInt32) (var : Variable) : (all index).get var = index := by
  simp [all, get_normalized]

theorem get_set (indexing : Indexing) (var other : Variable) (index : UInt32) :
    (indexing.set var index).get other = if other = var then index else indexing.get other := by
  rw [set, get_normalized, SortedMap.get?_insert]
  split <;> rfl

theorem get_of_not_entered {indexing : Indexing} {var : Variable}
    (absent : var ∉ indexing.entries.keys) : indexing.get var = indexing.default := by
  rw [get, (SortedMap.get?_eq_none_iff _ _).mpr absent, Option.getD_none]

theorem get_join (left right : Indexing) (var : Variable) :
    (left.join right).get var = max (left.get var) (right.get var) := by
  rw [join, get_normalized, SortedMap.get?_ofList_map]
  split
  · rfl
  next absent =>
    simp only [entered, List.mem_append, not_or] at absent
    rw [get_of_not_entered absent.1, get_of_not_entered absent.2, Option.getD_none]

private theorem eq_map_of_mapM {combined : Variable → Option UInt32} {vars : List Variable}
    {entries : List (Variable × UInt32)}
    (mapped : vars.mapM (fun var => do pure (var, ← combined var)) = some entries) :
    entries = vars.map (fun var => (var, (combined var).getD 0)) ∧
      ∀ var ∈ vars, (combined var).isSome = true := by
  induction vars generalizing entries with
  | nil => simpa using mapped
  | cons head rest induction =>
      simp only [List.mapM_cons, Option.bind_eq_bind, Option.bind_eq_some_iff, Option.pure_def,
        Option.some.injEq] at mapped
      obtain ⟨_, ⟨index, found, rfl⟩, others, mappedRest, rfl⟩ := mapped
      obtain ⟨equal, present⟩ := induction mappedRest
      exact ⟨by simp [found, equal], List.forall_mem_cons.mpr ⟨by simp [found], present⟩⟩

theorem get_add (sum : left.add? right = some result) (var : Variable) :
    (result.get var).toNat = (left.get var).toNat + (right.get var).toNat := by
  rw [← Version.ofNat?_eq_some_iff]
  change Version.add? (left.get var) (right.get var) = _
  simp only [add?, pointwise?, Option.bind_eq_bind, Option.bind_eq_some_iff, Option.pure_def,
    Option.some.injEq] at sum
  obtain ⟨default, defaults, entries, mapped, rfl⟩ := sum
  obtain ⟨rfl, present⟩ := eq_map_of_mapM mapped
  rw [get_normalized, SortedMap.get?_ofList_map]
  split
  next entered =>
    obtain ⟨index, found⟩ := Option.isSome_iff_exists.mp (present var entered)
    simp [found]
  next absent =>
    simp only [entered, List.mem_append, not_or] at absent
    rw [get_of_not_entered absent.1, get_of_not_entered absent.2, Option.getD_none, defaults]

private theorem exists_not_mem (vars : List Variable) : ∃ var, var ∉ vars := by
  have ⟨bound, below⟩ : ∃ bound, ∀ var ∈ vars, var.position < bound := by
    induction vars with
    | nil => exact ⟨0, by simp⟩
    | cons head rest induction =>
        obtain ⟨bound, below⟩ := induction
        refine ⟨max (head.position + 1) bound, List.forall_mem_cons.mpr ⟨by omega, ?_⟩⟩
        intro var member
        exact Nat.lt_of_lt_of_le (below var member) (Nat.le_max_right ..)
  exact ⟨⟨bound, "", .bool⟩, fun member => Nat.lt_irrefl bound (below _ member)⟩

private theorem exists_mapM {combined : Variable → Option UInt32} {vars : List Variable}
    (each : ∀ var ∈ vars, ∃ index, combined var = some index) :
    ∃ entries, vars.mapM (fun var => do pure (var, ← combined var)) = some entries := by
  induction vars with
  | nil => exact ⟨[], rfl⟩
  | cons head rest induction =>
      obtain ⟨⟨index, found⟩, later⟩ := List.forall_mem_cons.mp each
      obtain ⟨entries, mapped⟩ := induction later
      refine ⟨(head, index) :: entries, ?_⟩
      simp only [List.mapM_cons, found, mapped]
      rfl

theorem exists_get_eq_default (left right : Indexing) :
    ∃ var, left.get var = left.default ∧ right.get var = right.default := by
  obtain ⟨fresh, absent⟩ := exists_not_mem (left.entered right)
  simp only [entered, List.mem_append, not_or] at absent
  exact ⟨fresh, get_of_not_entered absent.1, get_of_not_entered absent.2⟩

theorem exists_add? (fits : ∀ var, (left.get var).toNat + (right.get var).toNat < UInt32.size) :
    ∃ result, left.add? right = some result := by
  have each (var : Variable) : ∃ index, Version.add? (left.get var) (right.get var) = some index :=
    ⟨_, (Version.ofNat?_eq_some_iff ..).mpr (UInt32.toNat_ofNat_of_lt (fits var))⟩
  obtain ⟨fresh, atLeft, atRight⟩ := exists_get_eq_default left right
  obtain ⟨default, defaults⟩ := each fresh
  rw [atLeft, atRight] at defaults
  obtain ⟨entries, mapped⟩ := exists_mapM fun var (_ : var ∈ left.entered right) => each var
  refine ⟨normalized default (SortedMap.ofList entries), ?_⟩
  simp only [add?, pointwise?, defaults, mapped]
  rfl

end Indexing

theorem map_eq_map_of_places {α β γ : Type} {left : List α} {right : List β}
    {first : α → γ} {second : β → γ} (length : left.length = right.length)
    (each : ∀ (place : Nat) (a : α) (b : β), left[place]? = some a → right[place]? = some b →
      first a = second b) : left.map first = right.map second := by
  induction left generalizing right with
  | nil => rw [List.eq_nil_of_length_eq_zero length.symm, List.map_nil, List.map_nil]
  | cons a left induction =>
      cases right with
      | nil => simp at length
      | cons b right =>
          rw [List.map_cons, List.map_cons, each 0 a b rfl rfl,
            induction (Nat.succ.inj length) fun place => each (place + 1)]

namespace Formula

variable {indexing : Indexing} {primes : Nat} {formula unfolded : Formula}

/-! ## Unfolding -/

/-- What unfolding does to each node. -/
inductive Unfolds (indexing : Indexing) : Nat → Formula → Formula → Prop where
  | bool (primes : Nat) (value : Bool) : Unfolds indexing primes (.bool value) (.bool value)
  | int (primes : Nat) (value : Int64) : Unfolds indexing primes (.int value) (.int value)
  | current {primes : Nat} {var : Variable} {index : UInt32} :
      index.toNat = (indexing.get var).toNat + primes →
      Unfolds indexing primes (.symbol (.current var)) (.symbol (.version var index))
  | version (primes : Nat) (var : Variable) (index : UInt32) :
      Unfolds indexing primes (.symbol (.version var index)) (.symbol (.version var index))
  | prime {primes : Nat} {operand unfolded : Formula} :
      Unfolds indexing (primes + 1) operand unfolded →
      Unfolds indexing primes (.unary .prime operand) unfolded
  | unary {primes : Nat} {op : UnaryOp} {operand unfolded : Formula} :
      op ≠ .prime → Unfolds indexing primes operand unfolded →
      Unfolds indexing primes (.unary op operand) (.unary op unfolded)
  | binary {primes : Nat} {op : BinaryOp} {left right left' right' : Formula} :
      Unfolds indexing primes left left' → Unfolds indexing primes right right' →
      Unfolds indexing primes (.binary op left right) (.binary op left' right')
  | nary {primes : Nat} {op : NaryOp} {operands unfolded : List Formula} :
      operands.length = unfolded.length →
      (∀ (place : Nat) (operand operand' : Formula), operands[place]? = some operand →
        unfolded[place]? = some operand' → Unfolds indexing primes operand operand') →
      Unfolds indexing primes (.nary op operands) (.nary op unfolded)
  | ite {primes : Nat} {condition consequent alternative condition' consequent' alternative' :
        Formula} :
      Unfolds indexing primes condition condition' →
      Unfolds indexing primes consequent consequent' →
      Unfolds indexing primes alternative alternative' →
      Unfolds indexing primes (.ite condition consequent alternative)
        (.ite condition' consequent' alternative')

private theorem unfolds_of_unfoldAll? {operands unfolded : List Formula}
    (each : ∀ operand ∈ operands, ∀ result, operand.unfoldPrimed? indexing primes = some result →
      Unfolds indexing primes operand result)
    (result : unfoldAll? indexing primes operands = some unfolded) :
    operands.length = unfolded.length ∧
      ∀ (place : Nat) (operand operand' : Formula), operands[place]? = some operand →
        unfolded[place]? = some operand' → Unfolds indexing primes operand operand' := by
  induction operands generalizing unfolded with
  | nil =>
      obtain rfl : [] = unfolded := by simpa [unfoldAll?] using result
      simp
  | cons head rest induction =>
      simp only [unfoldAll?, Option.bind_eq_bind, Option.bind_eq_some_iff, Option.pure_def,
        Option.some.injEq] at result
      obtain ⟨first, unfoldedHead, others, unfoldedRest, rfl⟩ := result
      obtain ⟨headCase, restCases⟩ := List.forall_mem_cons.mp each
      obtain ⟨length, later⟩ := induction restCases unfoldedRest
      refine ⟨by simp [length], fun place operand operand' found found' => ?_⟩
      cases place with
      | zero =>
          obtain rfl : head = operand := by simpa using found
          obtain rfl : first = operand' := by simpa using found'
          exact headCase first unfoldedHead
      | succ place =>
          exact later place operand operand' (by simpa using found) (by simpa using found')

theorem unfolds_of_unfoldPrimed? (result : formula.unfoldPrimed? indexing primes = some unfolded) :
    Unfolds indexing primes formula unfolded := by
  induction formula generalizing primes unfolded with
  | bool value =>
      obtain rfl := Option.some.inj result
      exact .bool primes value
  | int value =>
      obtain rfl := Option.some.inj result
      exact .int primes value
  | symbol name =>
      cases name with
      | current var =>
          simp only [unfoldPrimed?, Option.bind_eq_bind, Option.bind_eq_some_iff, Option.pure_def,
            Option.some.injEq] at result
          obtain ⟨index, found, rfl⟩ := result
          exact .current ((Version.ofNat?_eq_some_iff _ _).mp found)
      | version var index =>
          obtain rfl := Option.some.inj result
          exact .version primes var index
  | unary op operand operandCase =>
      cases op with
      | prime => exact .prime (operandCase result)
      | not | neg =>
          simp only [unfoldPrimed?, Option.bind_eq_bind, Option.bind_eq_some_iff, Option.pure_def,
            Option.some.injEq] at result
          obtain ⟨operand', found, rfl⟩ := result
          exact .unary (by decide) (operandCase found)
  | binary op left right leftCase rightCase =>
      simp only [unfoldPrimed?, Option.bind_eq_bind, Option.bind_eq_some_iff, Option.pure_def,
        Option.some.injEq] at result
      obtain ⟨left', foundLeft, right', foundRight, rfl⟩ := result
      exact .binary (leftCase foundLeft) (rightCase foundRight)
  | nary op operands operandCases =>
      simp only [unfoldPrimed?, Option.bind_eq_bind, Option.bind_eq_some_iff, Option.pure_def,
        Option.some.injEq] at result
      obtain ⟨operands', found, rfl⟩ := result
      obtain ⟨length, each⟩ := unfolds_of_unfoldAll?
        (fun operand member result unfolded => operandCases operand member unfolded) found
      exact .nary length each
  | ite condition consequent alternative conditionCase consequentCase alternativeCase =>
      simp only [unfoldPrimed?, Option.bind_eq_bind, Option.bind_eq_some_iff, Option.pure_def,
        Option.some.injEq] at result
      obtain ⟨condition', foundCondition, consequent', foundConsequent, alternative',
        foundAlternative, rfl⟩ := result
      exact .ite (conditionCase foundCondition) (consequentCase foundConsequent)
        (alternativeCase foundAlternative)

private theorem exists_place {operands unfolded : List Formula}
    (length : operands.length = unfolded.length) {operand' : Formula}
    (member : operand' ∈ unfolded) :
    ∃ (place : Nat) (operand : Formula), operands[place]? = some operand ∧
      unfolded[place]? = some operand' := by
  obtain ⟨place, found⟩ := List.mem_iff_getElem?.mp member
  have less : place < operands.length := by
    rw [length]
    exact (List.getElem?_eq_some_iff.mp found).1
  exact ⟨place, operands[place], by simp [less], found⟩

theorem Unfolds.hasSort (unfolds : Unfolds indexing primes formula unfolded) {sort : ValueSort}
    (typed : formula.HasSort sort) : unfolded.HasSort sort := by
  induction unfolds generalizing sort with
  | bool | int | version => exact typed
  | current => simpa [Symbol.domain, Symbol.var] using typed
  | prime _ operandCase =>
      cases typed with
      | prime typed => exact operandCase typed
  | unary notPrime _ operandCase =>
      cases typed with
      | prime => exact absurd rfl notPrime
      | not typed => exact .not (operandCase typed)
      | neg typed => exact .neg (operandCase typed)
  | binary _ _ leftCase rightCase =>
      cases typed with
      | binary sorts left right => exact .binary sorts (leftCase left) (rightCase right)
  | nary length _ operandCases =>
      cases typed with
      | nary each =>
          refine .nary fun operand' member => ?_
          obtain ⟨place, operand, found, found'⟩ := exists_place length member
          exact operandCases place operand operand' found found'
            (each operand (List.mem_of_getElem? found))
  | ite _ _ _ conditionCase consequentCase alternativeCase =>
      cases typed with
      | ite condition consequent alternative =>
          exact .ite (conditionCase condition) (consequentCase consequent)
            (alternativeCase alternative)

theorem Unfolds.primeFree (unfolds : Unfolds indexing primes formula unfolded) :
    unfolded.PrimeFree := by
  induction unfolds with
  | bool | int | current | version => simp
  | prime _ operandCase => exact operandCase
  | unary notPrime _ operandCase => exact (primeFree_unary ..).mpr ⟨notPrime, operandCase⟩
  | binary _ _ leftCase rightCase => exact (primeFree_binary ..).mpr ⟨leftCase, rightCase⟩
  | nary length _ operandCases =>
      refine (primeFree_nary ..).mpr fun operand' member => ?_
      obtain ⟨place, operand, found, found'⟩ := exists_place length member
      exact operandCases place operand operand' found found'
  | ite _ _ _ conditionCase consequentCase alternativeCase =>
      exact (primeFree_ite ..).mpr ⟨conditionCase, consequentCase, alternativeCase⟩

/-! ## Variables under primes -/

inductive OccursUnder (var : Variable) : Nat → Formula → Prop where
  | here : OccursUnder var 0 (.symbol (.current var))
  | prime {primes : Nat} {operand : Formula} :
      OccursUnder var primes operand → OccursUnder var (primes + 1) (.unary .prime operand)
  | within {primes : Nat} {formula child : Formula} :
      (∀ operand, formula ≠ .unary .prime operand) → child ∈ formula.children →
      OccursUnder var primes child → OccursUnder var primes formula

theorem OccursUnder.mentions {var : Variable} (occurs : OccursUnder var primes formula) :
    formula.Mentions (.current var) := by
  induction occurs with
  | here => simp
  | prime _ operandCase => simpa using operandCase
  | within _ member _ childCase => exact .of_child member childCase

private theorem exists_unfoldAll? {operands : List Formula}
    (each : ∀ operand ∈ operands, ∃ unfolded,
      operand.unfoldPrimed? indexing primes = some unfolded) :
    ∃ unfolded, unfoldAll? indexing primes operands = some unfolded := by
  induction operands with
  | nil => exact ⟨[], rfl⟩
  | cons head rest induction =>
      obtain ⟨⟨first, unfoldedHead⟩, restCases⟩ := List.forall_mem_cons.mp each
      obtain ⟨others, unfoldedRest⟩ := induction restCases
      exact ⟨first :: others, by simp [unfoldAll?, unfoldedHead, unfoldedRest]⟩

theorem exists_unfoldPrimed?
    (fits : ∀ var below, OccursUnder var below formula →
      (indexing.get var).toNat + primes + below < UInt32.size) :
    ∃ unfolded, formula.unfoldPrimed? indexing primes = some unfolded := by
  induction formula generalizing primes with
  | bool value => exact ⟨_, rfl⟩
  | int value => exact ⟨_, rfl⟩
  | symbol name =>
      cases name with
      | current var =>
          have found : Version.ofNat? ((indexing.get var).toNat + primes) = some _ :=
            if_pos (fits var 0 .here)
          simp [unfoldPrimed?, found]
      | version var index => exact ⟨_, rfl⟩
  | unary op operand operandCase =>
      cases op with
      | prime =>
          apply operandCase
          intro var below occurs
          have bound := fits var (below + 1) (.prime occurs)
          omega
      | not | neg =>
          obtain ⟨unfolded, found⟩ := operandCase fun var below occurs =>
            fits var below (.within (by simp) (by simp [children]) occurs)
          simp [unfoldPrimed?, found]
  | binary op left right leftCase rightCase =>
      obtain ⟨left', foundLeft⟩ := leftCase fun var below occurs =>
        fits var below (.within (by simp) (by simp [children]) occurs)
      obtain ⟨right', foundRight⟩ := rightCase fun var below occurs =>
        fits var below (.within (by simp) (by simp [children]) occurs)
      simp [unfoldPrimed?, foundLeft, foundRight]
  | nary op operands operandCases =>
      obtain ⟨unfolded, found⟩ := exists_unfoldAll? fun operand member =>
        operandCases operand member fun var below occurs =>
          fits var below (.within (by simp) member occurs)
      simp [unfoldPrimed?, found]
  | ite condition consequent alternative conditionCase consequentCase alternativeCase =>
      obtain ⟨condition', foundCondition⟩ := conditionCase fun var below occurs =>
        fits var below (.within (by simp) (by simp [children]) occurs)
      obtain ⟨consequent', foundConsequent⟩ := consequentCase fun var below occurs =>
        fits var below (.within (by simp) (by simp [children]) occurs)
      obtain ⟨alternative', foundAlternative⟩ := alternativeCase fun var below occurs =>
        fits var below (.within (by simp) (by simp [children]) occurs)
      simp [unfoldPrimed?, foundCondition, foundConsequent, foundAlternative]

theorem OccursUnder.eq_zero {var : Variable} (occurs : OccursUnder var primes formula)
    (free : formula.PrimeFree) : primes = 0 := by
  induction occurs with
  | here => rfl
  | prime => exact absurd free (not_primeFree_prime _)
  | within _ member _ induction => exact induction (free.child member)

theorem exists_unfoldAt? (free : formula.PrimeFree) (indexing : Indexing) :
    ∃ unfolded, formula.unfoldAt? indexing = some unfolded := by
  apply exists_unfoldPrimed?
  intro var below occurs
  rw [occurs.eq_zero free]
  exact (indexing.get var).toNat_lt

theorem VersionFree.child {child : Formula} (free : formula.VersionFree)
    (member : child ∈ formula.children) : child.VersionFree :=
  fun var index mentions => free var index (.of_child member mentions)

/-- The versions in an unfolded formula are those of the variables that occur,
as many versions on as they are below primes. -/
theorem Unfolds.mentions (unfolds : Unfolds indexing primes formula unfolded)
    (free : formula.VersionFree) {symbol : Symbol} (mentions : unfolded.Mentions symbol) :
    ∃ below, OccursUnder symbol.var below formula ∧ ∃ index, symbol = .version symbol.var index ∧
      index.toNat = (indexing.get symbol.var).toNat + primes + below := by
  induction unfolds with
  | bool | int => simp at mentions
  | @current primes var index number =>
      obtain rfl : symbol = .version var index := by simpa using mentions
      exact ⟨0, .here, index, rfl, number⟩
  | version primes var index => exact absurd (by simp) (free var index)
  | prime _ operandCase =>
      obtain ⟨below, occurs, index, equal, number⟩ :=
        operandCase (free.child (by simp [children])) mentions
      exact ⟨below + 1, .prime occurs, index, equal, by omega⟩
  | unary notPrime _ operandCase =>
      obtain ⟨below, occurs, index⟩ :=
        operandCase (free.child (by simp [children])) (by simpa using mentions)
      refine ⟨below, .within (fun operand equal => ?_) (by simp [children]) occurs, index⟩
      simp only [Formula.unary.injEq] at equal
      exact notPrime equal.1
  | binary _ _ leftCase rightCase =>
      rcases (mentions_binary ..).mp mentions with inLeft | inRight
      · obtain ⟨below, occurs, index⟩ := leftCase (free.child (by simp [children])) inLeft
        exact ⟨below, .within (by simp) (by simp [children]) occurs, index⟩
      · obtain ⟨below, occurs, index⟩ := rightCase (free.child (by simp [children])) inRight
        exact ⟨below, .within (by simp) (by simp [children]) occurs, index⟩
  | nary length _ operandCases =>
      obtain ⟨operand', member, mentions⟩ := (mentions_nary ..).mp mentions
      obtain ⟨place, operand, found, found'⟩ := exists_place length member
      have inOperands := List.mem_of_getElem? found
      obtain ⟨below, occurs, index⟩ :=
        operandCases place operand operand' found found' (free.child inOperands) mentions
      exact ⟨below, .within (by simp) inOperands occurs, index⟩
  | ite _ _ _ conditionCase consequentCase alternativeCase =>
      rcases (mentions_ite ..).mp mentions with inCondition | inConsequent | inAlternative
      · obtain ⟨below, occurs, index⟩ := conditionCase (free.child (by simp [children])) inCondition
        exact ⟨below, .within (by simp) (by simp [children]) occurs, index⟩
      · obtain ⟨below, occurs, index⟩ :=
          consequentCase (free.child (by simp [children])) inConsequent
        exact ⟨below, .within (by simp) (by simp [children]) occurs, index⟩
      · obtain ⟨below, occurs, index⟩ :=
          alternativeCase (free.child (by simp [children])) inAlternative
        exact ⟨below, .within (by simp) (by simp [children]) occurs, index⟩

theorem Unfolds.exists_mentions (unfolds : Unfolds indexing primes formula unfolded)
    {symbol : Symbol} (mentions : formula.Mentions symbol) :
    ∃ other, unfolded.Mentions other ∧ other.var = symbol.var := by
  induction unfolds with
  | bool | int => simp at mentions
  | @current primes var index number =>
      obtain rfl : symbol = .current var := by simpa using mentions
      exact ⟨.version var index, by simp, rfl⟩
  | version primes var index =>
      obtain rfl : symbol = .version var index := by simpa using mentions
      exact ⟨_, by simp, rfl⟩
  | prime _ operandCase => exact operandCase (by simpa using mentions)
  | unary _ _ operandCase =>
      obtain ⟨other, inOperand, same⟩ := operandCase (by simpa using mentions)
      exact ⟨other, by simpa using inOperand, same⟩
  | binary _ _ leftCase rightCase =>
      rcases (mentions_binary ..).mp mentions with inLeft | inRight
      · obtain ⟨other, found, same⟩ := leftCase inLeft
        exact ⟨other, (mentions_binary ..).mpr (.inl found), same⟩
      · obtain ⟨other, found, same⟩ := rightCase inRight
        exact ⟨other, (mentions_binary ..).mpr (.inr found), same⟩
  | nary length _ operandCases =>
      obtain ⟨operand, member, mentions⟩ := (mentions_nary ..).mp mentions
      obtain ⟨place, operand', found', found⟩ := exists_place length.symm member
      obtain ⟨other, inOperand, same⟩ :=
        operandCases place operand operand' found found' mentions
      exact ⟨other, (mentions_nary ..).mpr ⟨operand', List.mem_of_getElem? found', inOperand⟩, same⟩
  | ite _ _ _ conditionCase consequentCase alternativeCase =>
      rcases (mentions_ite ..).mp mentions with inCondition | inConsequent | inAlternative
      · obtain ⟨other, found, same⟩ := conditionCase inCondition
        exact ⟨other, (mentions_ite ..).mpr (.inl found), same⟩
      · obtain ⟨other, found, same⟩ := consequentCase inConsequent
        exact ⟨other, (mentions_ite ..).mpr (.inr (.inl found)), same⟩
      · obtain ⟨other, found, same⟩ := alternativeCase inAlternative
        exact ⟨other, (mentions_ite ..).mpr (.inr (.inr found)), same⟩

private theorem map_eq_of_places {operands first second : List Formula}
    {change : Formula → Formula} (firstLength : operands.length = first.length)
    (secondLength : operands.length = second.length)
    (each : ∀ (place : Nat) (operand left right : Formula), operands[place]? = some operand →
      first[place]? = some left → second[place]? = some right → right = change left) :
    second = first.map change := by
  rw [← List.map_id second]
  refine map_eq_map_of_places (secondLength.symm.trans firstLength)
    fun place right left foundSecond foundFirst => ?_
  have less : place < operands.length := by
    rw [firstLength]
    exact (List.getElem?_eq_some_iff.mp foundFirst).1
  exact each place operands[place] left right (by simp [less]) foundFirst foundSecond

/-- Two unfoldings of a formula differ only in the names of the versions. -/
theorem Unfolds.eq_rename {indexing' : Indexing} {primes' : Nat} {unfolded' : Formula}
    {change : Symbol → Symbol} (unfolds : Unfolds indexing primes formula unfolded)
    (unfolds' : Unfolds indexing' primes' formula unfolded') (free : formula.VersionFree)
    (changes : ∀ (var : Variable) (below : Nat) (index index' : UInt32),
      OccursUnder var below formula →
      index.toNat = (indexing.get var).toNat + primes + below →
      index'.toNat = (indexing'.get var).toNat + primes' + below →
      change (.version var index) = .version var index') :
    unfolded' = unfolded.rename change := by
  induction unfolds generalizing primes' unfolded' with
  | bool primes value =>
      cases unfolds'
      rfl
  | int primes value =>
      cases unfolds'
      rfl
  | @current primes var index number =>
      cases unfolds' with
      | @current _ _ index' number' =>
          rw [rename, changes var 0 index index' .here number number']
  | version primes var index => exact absurd (by simp) (free var index)
  | prime _ operandCase =>
      cases unfolds' with
      | prime unfolds' =>
          -- Below a prime the count of primes has moved from the path to the depth.
          refine operandCase unfolds' (free.child (by simp [children])) ?_
          intro var below index index' occurs number number'
          exact changes var (below + 1) index index' (.prime occurs) (by omega) (by omega)
      | unary notPrime => exact absurd rfl notPrime
  | unary notPrime _ operandCase =>
      cases unfolds' with
      | prime => exact absurd rfl notPrime
      | unary _ unfolds' =>
          rw [rename, operandCase unfolds' (free.child (by simp [children]))]
          intro var below index index' occurs
          refine changes var below index index' (.within (fun operand equal => ?_)
            (by simp [children]) occurs)
          simp only [Formula.unary.injEq] at equal
          exact notPrime equal.1
  | binary _ _ leftCase rightCase =>
      cases unfolds' with
      | binary left' right' =>
          rw [rename, leftCase left' (free.child (by simp [children])),
            rightCase right' (free.child (by simp [children]))]
          · intro var below index index' occurs
            exact changes var below index index' (.within (by simp) (by simp [children]) occurs)
          · intro var below index index' occurs
            exact changes var below index index' (.within (by simp) (by simp [children]) occurs)
  | nary length _ operandCases =>
      cases unfolds' with
      | nary length' each' =>
          rw [rename, renameAll_eq_map, map_eq_of_places length length']
          intro place operand left right found foundFirst foundSecond
          have member := List.mem_of_getElem? found
          refine operandCases place operand left found foundFirst
            (each' place operand right found foundSecond) (free.child member) ?_
          intro var below index index' occurs
          exact changes var below index index' (.within (by simp) member occurs)
  | ite _ _ _ conditionCase consequentCase alternativeCase =>
      cases unfolds' with
      | ite condition' consequent' alternative' =>
          rw [rename, conditionCase condition' (free.child (by simp [children])),
            consequentCase consequent' (free.child (by simp [children])),
            alternativeCase alternative' (free.child (by simp [children]))]
          all_goals
            intro var below index index' occurs
            exact changes var below index index' (.within (by simp) (by simp [children]) occurs)

def versioned (indexing : Indexing) : Symbol → Symbol
  | .current var => .version var (indexing.get var)
  | .version var index => .version var index

theorem Unfolds.eq_rename_versioned (unfolds : Unfolds indexing 0 formula unfolded)
    (free : formula.PrimeFree) : unfolded = formula.rename (versioned indexing) := by
  generalize level : 0 = primes at unfolds
  induction unfolds with
  | bool | int | version => rfl
  | @current primes var index number =>
      obtain rfl : index = indexing.get var := UInt32.toNat_inj.mp (by omega)
      rfl
  | prime => exact absurd free (not_primeFree_prime _)
  | unary _ _ operandCase => rw [rename, ← operandCase (free.child (by simp [children])) level]
  | binary _ _ leftCase rightCase =>
      rw [rename, ← leftCase (free.child (by simp [children])) level,
        ← rightCase (free.child (by simp [children])) level]
  | nary length _ operandCases =>
      rw [rename, renameAll_eq_map, map_eq_of_places rfl length]
      intro place operand left right found foundFirst foundSecond
      obtain rfl := Option.some.inj (found.symm.trans foundFirst)
      exact operandCases place operand right found foundSecond
        (free.child (List.mem_of_getElem? found)) level
  | ite _ _ _ conditionCase consequentCase alternativeCase =>
      rw [rename, ← conditionCase (free.child (by simp [children])) level,
        ← consequentCase (free.child (by simp [children])) level,
        ← alternativeCase (free.child (by simp [children])) level]

theorem unfoldAt?_eq_rename (free : formula.PrimeFree) :
    formula.unfoldAt? indexing = some (formula.rename (versioned indexing)) := by
  obtain ⟨unfolded, found⟩ := exists_unfoldAt? free indexing
  rw [found, (unfolds_of_unfoldPrimed? found).eq_rename_versioned free]

theorem unfoldAt?_eq_self (free : formula.PrimeFree)
    (versions : ∀ symbol, formula.Mentions symbol → ∃ index, symbol = .version symbol.var index) :
    formula.unfoldAt? indexing = some formula := by
  rw [unfoldAt?_eq_rename free, rename_eq_self]
  intro symbol mentions
  obtain ⟨index, same⟩ := versions symbol mentions
  rw [same, versioned]

theorem Unfolds.eq_rename_current (unfolds : Unfolds indexing 0 formula unfolded)
    (versionFree : formula.VersionFree) (primeFree : formula.PrimeFree) :
    unfolded = formula.rename fun symbol => .version symbol.var (indexing.get symbol.var) := by
  rw [unfolds.eq_rename_versioned primeFree]
  refine rename_congr fun symbol mentions => ?_
  cases symbol with
  | current var => rfl
  | version var index => exact absurd mentions (versionFree var index)

end Formula

end SymbolicSafety
