import SymbolicSafety.Formula.Traversal
import SymbolicSafety.Proofs.Lookup

namespace SymbolicSafety

/-! Which formulas and symbols occur in a formula. Occurrence is defined on the
tree; the walks that collect symbols and look for primes find exactly what
occurs. -/

namespace Formula

inductive Occurs (part : Formula) : Formula → Prop where
  | here : Occurs part part
  | within {formula child : Formula} :
      child ∈ formula.children → Occurs part child → Occurs part formula

/-- The symbol occurs, whether under primes or not. -/
def Mentions (formula : Formula) (symbol : Symbol) : Prop := Occurs (.symbol symbol) formula

def PrimeFree (formula : Formula) : Prop :=
  ∀ operand, ¬ Occurs (.unary .prime operand) formula

def VersionFree (formula : Formula) : Prop :=
  ∀ var index, ¬ formula.Mentions (.version var index)

theorem inductOnChildren {motive : Formula → Prop}
    (step : ∀ formula, (∀ child ∈ formula.children, motive child) → motive formula)
    (formula : Formula) : motive formula := by
  induction formula with
  | bool | int | symbol => exact step _ (by simp [children])
  | unary op operand operandCase => exact step _ (by simpa [children] using operandCase)
  | binary op left right leftCase rightCase =>
      exact step _ (by simpa [children] using ⟨leftCase, rightCase⟩)
  | nary op operands operandCases => exact step _ operandCases
  | ite condition consequent alternative conditionCase consequentCase alternativeCase =>
      exact step _ (by simpa [children] using ⟨conditionCase, consequentCase, alternativeCase⟩)

/-! ## Occurrence below each kind of node -/

theorem occurs_iff (part formula : Formula) :
    Occurs part formula ↔ part = formula ∨ ∃ child ∈ formula.children, Occurs part child := by
  constructor
  · intro occurs
    cases occurs with
    | here => exact .inl rfl
    | within member occurs => exact .inr ⟨_, member, occurs⟩
  · rintro (rfl | ⟨child, member, occurs⟩)
    · exact .here
    · exact .within member occurs

@[simp] theorem mentions_bool (value : Bool) (symbol : Symbol) :
    ¬ (Formula.bool value).Mentions symbol := by
  simp [Mentions, occurs_iff _ (.bool value), children]

@[simp] theorem mentions_int (value : Int64) (symbol : Symbol) :
    ¬ (Formula.int value).Mentions symbol := by
  simp [Mentions, occurs_iff _ (.int value), children]

@[simp] theorem mentions_symbol (name symbol : Symbol) :
    (Formula.symbol name).Mentions symbol ↔ symbol = name := by
  simp [Mentions, occurs_iff _ (.symbol name), children]

@[simp] theorem mentions_unary (op : UnaryOp) (operand : Formula) (symbol : Symbol) :
    (Formula.unary op operand).Mentions symbol ↔ operand.Mentions symbol := by
  simp [Mentions, occurs_iff _ (.unary op operand), children]

@[simp] theorem mentions_binary (op : BinaryOp) (left right : Formula) (symbol : Symbol) :
    (Formula.binary op left right).Mentions symbol ↔
      left.Mentions symbol ∨ right.Mentions symbol := by
  simp [Mentions, occurs_iff _ (.binary op left right), children]

@[simp] theorem mentions_nary (op : NaryOp) (operands : List Formula) (symbol : Symbol) :
    (Formula.nary op operands).Mentions symbol ↔
      ∃ operand ∈ operands, operand.Mentions symbol := by
  simp [Mentions, occurs_iff _ (.nary op operands), children]

@[simp] theorem mentions_ite (condition consequent alternative : Formula) (symbol : Symbol) :
    (Formula.ite condition consequent alternative).Mentions symbol ↔
      condition.Mentions symbol ∨ consequent.Mentions symbol ∨ alternative.Mentions symbol := by
  simp [Mentions, occurs_iff _ (.ite condition consequent alternative), children]

theorem Mentions.of_child {formula child : Formula} {symbol : Symbol}
    (member : child ∈ formula.children) (mentions : child.Mentions symbol) :
    formula.Mentions symbol :=
  .within member mentions

theorem Occurs.mentions {part formula : Formula} {symbol : Symbol} (occurs : Occurs part formula)
    (mentions : part.Mentions symbol) : formula.Mentions symbol := by
  induction occurs with
  | here => exact mentions
  | within member _ induction => exact .of_child member induction

theorem PrimeFree.child {formula child : Formula} (free : formula.PrimeFree)
    (member : child ∈ formula.children) : child.PrimeFree :=
  fun operand occurs => free operand (.within member occurs)

theorem not_primeFree_prime (operand : Formula) : ¬ (Formula.unary .prime operand).PrimeFree :=
  fun free => free operand .here

theorem primeFree_iff (formula : Formula) : formula.PrimeFree ↔
    (∀ operand, formula ≠ .unary .prime operand) ∧
      ∀ child ∈ formula.children, child.PrimeFree := by
  constructor
  · intro free
    refine ⟨?_, fun child => free.child⟩
    rintro operand rfl
    exact not_primeFree_prime operand free
  · rintro ⟨root, each⟩ operand occurs
    rcases (occurs_iff _ _).mp occurs with equal | ⟨child, member, below⟩
    · exact root operand equal.symm
    · exact each child member operand below

@[simp] theorem primeFree_bool (value : Bool) : (Formula.bool value).PrimeFree := by
  simp [primeFree_iff (.bool value), children]

@[simp] theorem primeFree_int (value : Int64) : (Formula.int value).PrimeFree := by
  simp [primeFree_iff (.int value), children]

@[simp] theorem primeFree_symbol (name : Symbol) : (Formula.symbol name).PrimeFree := by
  simp [primeFree_iff (.symbol name), children]

@[simp] theorem primeFree_unary (op : UnaryOp) (operand : Formula) :
    (Formula.unary op operand).PrimeFree ↔ op ≠ .prime ∧ operand.PrimeFree := by
  simp [primeFree_iff (.unary op operand), children]

@[simp] theorem primeFree_binary (op : BinaryOp) (left right : Formula) :
    (Formula.binary op left right).PrimeFree ↔ left.PrimeFree ∧ right.PrimeFree := by
  simp [primeFree_iff (.binary op left right), children]

@[simp] theorem primeFree_nary (op : NaryOp) (operands : List Formula) :
    (Formula.nary op operands).PrimeFree ↔ ∀ operand ∈ operands, operand.PrimeFree := by
  simp [primeFree_iff (.nary op operands), children]

@[simp] theorem primeFree_ite (condition consequent alternative : Formula) :
    (Formula.ite condition consequent alternative).PrimeFree ↔
      condition.PrimeFree ∧ consequent.PrimeFree ∧ alternative.PrimeFree := by
  simp [primeFree_iff (.ite condition consequent alternative), children]

/-! ## What the walks collect -/

/-- A walk reports what it looks for if this has been reported before or is to be
found in a waiting formula. Where the walk enters a node, what the node has
itself is reported at once and the rest is left to the children; where it does
not, everything is. -/
theorem walk_reports_iff {visit : σ → Formula → Bool × σ} (reports : σ → Prop)
    (finds : Formula → Prop)
    (entered : ∀ state node next, visit state node = (true, next) →
      ((reports next ∨ ∃ child ∈ node.children, finds child) ↔ reports state ∨ finds node))
    (skipped : ∀ state node next, visit state node = (false, next) →
      (reports next ↔ reports state ∨ finds node))
    (state : σ) (waiting : List Formula) :
    reports (walk visit state waiting) ↔ reports state ∨ ∃ formula ∈ waiting, finds formula := by
  fun_induction walk visit state waiting with
  | case1 => simp
  | case2 state formula waiting next visited induction =>
      have found := entered state formula next visited
      rw [induction]
      simp only [List.mem_append, List.mem_cons, or_and_right, exists_or, exists_eq_left]
      rw [← or_assoc, found, or_assoc]
  | case3 state formula waiting next visited induction =>
      have found := skipped state formula next visited
      rw [induction]
      simp only [List.mem_cons, or_and_right, exists_or, exists_eq_left]
      rw [found, or_assoc]

theorem mem_symbols_iff (formula : Formula) (symbol : Symbol) :
    symbol ∈ formula.symbols.keys ↔ formula.Mentions symbol := by
  refine (walk_reports_iff (fun found : SortedSet Symbol => symbol ∈ found.keys)
    (Mentions · symbol) ?_ ?_ _ _).trans (by simp)
  · intro found node next visited
    cases node with
    | symbol name =>
        obtain rfl : SortedSet.add found name = next := by simpa using visited
        simp [children, or_comm]
    | _ => simp_all [children]
  · intro found node next visited
    cases node <;> simp at visited

theorem mem_vars_iff (formula : Formula) (var : Variable) :
    var ∈ formula.vars.keys ↔ ∃ symbol, formula.Mentions symbol ∧ symbol.var = var := by
  simp [vars, mem_symbols_iff]

def Primes (formula : Formula) (var : Variable) : Prop :=
  ∃ operand, Occurs (.unary .prime operand) formula ∧
    ∃ symbol, operand.Mentions symbol ∧ symbol.var = var

theorem primes_prime_iff (operand : Formula) (var : Variable) :
    (Formula.unary .prime operand).Primes var ↔
      ∃ symbol, operand.Mentions symbol ∧ symbol.var = var := by
  constructor
  · rintro ⟨inner, occurs, symbol, mentions, named⟩
    rcases (occurs_iff _ _).mp occurs with equal | ⟨child, member, below⟩
    · obtain rfl : inner = operand := by simpa using equal
      exact ⟨symbol, mentions, named⟩
    · obtain rfl : child = operand := by simpa [children] using member
      exact ⟨symbol, below.mentions (.of_child List.mem_cons_self mentions), named⟩
  · rintro ⟨symbol, mentions, named⟩
    exact ⟨operand, .here, symbol, mentions, named⟩

theorem occurs_prime_iff {formula : Formula} (root : ∀ operand, formula ≠ .unary .prime operand)
    (operand : Formula) : Occurs (.unary .prime operand) formula ↔
      ∃ child ∈ formula.children, Occurs (.unary .prime operand) child := by
  rw [occurs_iff, or_iff_right (root operand).symm]

theorem primes_iff {formula : Formula} (root : ∀ operand, formula ≠ .unary .prime operand)
    (var : Variable) : formula.Primes var ↔ ∃ child ∈ formula.children, child.Primes var := by
  constructor
  · rintro ⟨operand, occurs, mentioned⟩
    obtain ⟨child, member, below⟩ := (occurs_prime_iff root operand).mp occurs
    exact ⟨child, member, operand, below, mentioned⟩
  · rintro ⟨child, member, operand, below, mentioned⟩
    exact ⟨operand, .within member below, mentioned⟩

theorem mem_primedVars_iff (formula : Formula) (var : Variable) :
    var ∈ formula.primedVars.keys ↔ formula.Primes var := by
  refine (walk_reports_iff (fun found : SortedSet Variable => var ∈ found.keys)
    (Primes · var) ?_ ?_ _ _).trans (by simp)
  · intro found node next visited
    split at visited
    · simp at visited
    next root =>
      obtain rfl : found = next := by simpa using visited
      rw [primes_iff root]
  · intro found node next visited
    split at visited
    next operand =>
      obtain rfl : SortedSet.addAll found operand.vars.keys = next := by simpa using visited
      rw [SortedSet.mem_keys_addAll, mem_vars_iff, primes_prime_iff, or_comm]
    · simp at visited

theorem hasPrime_iff (formula : Formula) :
    formula.hasPrime = true ↔ ∃ operand, Occurs (.unary .prime operand) formula := by
  refine (walk_reports_iff (fun found => found = true)
    (fun node => ∃ operand, Occurs (.unary .prime operand) node) ?_ ?_ _ _).trans (by simp)
  · intro found node next visited
    split at visited
    · simp at visited
    next root =>
      obtain ⟨rfl, rfl⟩ : found = false ∧ found = next := by simpa using visited
      simp only [occurs_prime_iff root]
      grind
  · intro found node next visited
    split at visited
    next operand =>
      obtain rfl : true = next := by simpa using visited
      simpa using .inr ⟨operand, .here⟩
    next =>
      obtain ⟨rfl, rfl⟩ : found = true ∧ found = next := by simpa using visited
      simp

end Formula

end SymbolicSafety
