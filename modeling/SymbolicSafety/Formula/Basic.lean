import SymbolicSafety.Variable

namespace SymbolicSafety

/-! Quantifier-free formulas and terms over truth values and integers. The
tree keeps what was written: nothing is simplified, an operator that takes a
list may have any number of operands, and a formula need not be well sorted. -/

inductive UnaryOp where
  | prime
  | not
  | neg
  deriving DecidableEq, Repr

inductive BinaryOp where
  | implies
  | iff
  | eq
  | neq
  | lt
  | leq
  | gt
  | geq
  | sub
  | div
  | mod
  deriving DecidableEq, Repr

inductive NaryOp where
  | and
  | or
  | add
  | mul
  deriving DecidableEq, Repr

/-- A Boolean formula or an integer term. A primed operand is read in the next
state. -/
inductive Formula where
  | bool (value : Bool)
  | int (value : Int64)
  | symbol (symbol : Symbol)
  | unary (op : UnaryOp) (operand : Formula)
  | binary (op : BinaryOp) (left right : Formula)
  | nary (op : NaryOp) (operands : List Formula)
  | ite (condition consequent alternative : Formula)
  deriving Repr, Inhabited

namespace Formula

@[elab_as_elim, induction_eliminator]
theorem induct {motive : Formula → Prop}
    (bool : ∀ value, motive (.bool value))
    (int : ∀ value, motive (.int value))
    (symbol : ∀ symbol, motive (.symbol symbol))
    (unary : ∀ op operand, motive operand → motive (.unary op operand))
    (binary : ∀ op left right, motive left → motive right → motive (.binary op left right))
    (nary : ∀ op operands, (∀ operand ∈ operands, motive operand) → motive (.nary op operands))
    (ite : ∀ condition consequent alternative, motive condition → motive consequent →
      motive alternative → motive (.ite condition consequent alternative))
    (formula : Formula) : motive formula :=
  @Formula.rec motive (fun operands => ∀ operand ∈ operands, motive operand)
    bool int symbol unary binary nary ite
    (fun _ member => nomatch member)
    (fun _ _ head tail operand member => by
      rcases List.mem_cons.mp member with equal | member
      · exact equal ▸ head
      · exact tail operand member)
    formula

def ofValue : Value → Formula
  | .bool value => .bool value
  | .int value => .int value

def current (var : Variable) : Formula := .symbol (.current var)

def version (var : Variable) (index : UInt32) : Formula := .symbol (.version var index)

def primed (var : Variable) : Formula := .unary .prime (current var)

/-! ## Equality -/

mutual

def beq : Formula → Formula → Bool
  | .bool left, .bool right => left == right
  | .int left, .int right => left == right
  | .symbol left, .symbol right => left == right
  | .unary op operand, .unary op' operand' => op == op' && beq operand operand'
  | .binary op left right, .binary op' left' right' =>
      op == op' && beq left left' && beq right right'
  | .nary op operands, .nary op' operands' => op == op' && beqAll operands operands'
  | .ite condition consequent alternative, .ite condition' consequent' alternative' =>
      beq condition condition' && beq consequent consequent' && beq alternative alternative'
  | _, _ => false

def beqAll : List Formula → List Formula → Bool
  | [], [] => true
  | head :: rest, head' :: rest' => beq head head' && beqAll rest rest'
  | _, _ => false

end

theorem beqAll_iff_eq {left right : List Formula}
    (each : ∀ operand ∈ left, ∀ other, beq operand other = true ↔ operand = other) :
    beqAll left right = true ↔ left = right := by
  induction left generalizing right with
  | nil => cases right <;> simp [beqAll]
  | cons head rest induction =>
      cases right with
      | nil => simp [beqAll]
      | cons head' rest' =>
          have headCase := each head List.mem_cons_self head'
          have tailCase : beqAll rest rest' = true ↔ rest = rest' :=
            induction fun operand member => each operand (List.mem_cons_of_mem _ member)
          simp [beqAll, headCase, tailCase]

theorem beq_iff_eq (left right : Formula) : beq left right = true ↔ left = right := by
  induction left generalizing right with
  | bool value => cases right <;> simp [beq]
  | int value => cases right <;> simp [beq]
  | symbol symbol => cases right <;> simp [beq]
  | unary op operand operandCase => cases right <;> simp [beq, operandCase]
  | binary op first second firstCase secondCase =>
      cases right <;> simp [beq, firstCase, secondCase, and_assoc]
  | nary op operands operandCases =>
      cases right <;> simp [beq, beqAll_iff_eq operandCases]
  | ite condition consequent alternative conditionCase consequentCase alternativeCase =>
      cases right <;> simp [beq, conditionCase, consequentCase, alternativeCase, and_assoc]

instance : DecidableEq Formula := fun left right =>
  decidable_of_iff (beq left right = true) (beq_iff_eq left right)

/-! ## Structure -/

def children : Formula → List Formula
  | .bool _ | .int _ | .symbol _ => []
  | .unary _ operand => [operand]
  | .binary _ left right => [left, right]
  | .nary _ operands => operands
  | .ite condition consequent alternative => [condition, consequent, alternative]

def conjuncts : Formula → List Formula
  | .nary .and operands => operands
  | formula => [formula]

mutual

def size : Formula → Nat
  | .bool _ | .int _ | .symbol _ => 1
  | .unary _ operand => operand.size + 1
  | .binary _ left right => left.size + right.size + 1
  | .nary _ operands => sizeAll operands + 1
  | .ite condition consequent alternative =>
      condition.size + consequent.size + alternative.size + 1

def sizeAll : List Formula → Nat
  | [] => 0
  | head :: rest => head.size + sizeAll rest

end

/-! ## Kinds -/

/-- What stands at the root of a formula. The order of the kinds is the order
in which formulas of different kinds are listed. -/
inductive Kind where
  | true
  | false
  | int
  | current
  | version
  | prime
  | not
  | and
  | or
  | implies
  | iff
  | eq
  | neq
  | lt
  | leq
  | gt
  | geq
  | add
  | sub
  | mul
  | neg
  | div
  | mod
  | ite
  deriving DecidableEq, Repr, Ord

end Formula

def UnaryOp.kind : UnaryOp → Formula.Kind
  | .prime => .prime
  | .not => .not
  | .neg => .neg

def BinaryOp.kind : BinaryOp → Formula.Kind
  | .implies => .implies
  | .iff => .iff
  | .eq => .eq
  | .neq => .neq
  | .lt => .lt
  | .leq => .leq
  | .gt => .gt
  | .geq => .geq
  | .sub => .sub
  | .div => .div
  | .mod => .mod

def NaryOp.kind : NaryOp → Formula.Kind
  | .and => .and
  | .or => .or
  | .add => .add
  | .mul => .mul

namespace Formula

def kind : Formula → Kind
  | .bool value => if value then .true else .false
  | .int _ => .int
  | .symbol (.current _) => .current
  | .symbol (.version ..) => .version
  | .unary op _ => op.kind
  | .binary op _ _ => op.kind
  | .nary op _ => op.kind
  | .ite .. => .ite

/-! ## Order

Formulas are compared by kind, and formulas of one kind by their parts from
left to right. -/

mutual

protected def compare (left right : Formula) : Ordering :=
  (compare left.kind right.kind).then
    (match left, right with
    | .int value, .int value' => compare value value'
    | .symbol name, .symbol name' => compare name name'
    | .unary _ operand, .unary _ operand' => Formula.compare operand operand'
    | .binary _ first second, .binary _ first' second' =>
        (Formula.compare first first').then (Formula.compare second second')
    | .nary _ operands, .nary _ operands' => compareAll operands operands'
    | .ite condition consequent alternative, .ite condition' consequent' alternative' =>
        (Formula.compare condition condition').then
          ((Formula.compare consequent consequent').then
            (Formula.compare alternative alternative'))
    | _, _ => .eq)

def compareAll : List Formula → List Formula → Ordering
  | [], [] => .eq
  | [], _ :: _ => .lt
  | _ :: _, [] => .gt
  | head :: rest, head' :: rest' => (Formula.compare head head').then (compareAll rest rest')

end

instance : Ord Formula := ⟨Formula.compare⟩

def sorted (formulas : List Formula) : List Formula :=
  formulas.mergeSort fun left right => (compare left right).isLE

end Formula

end SymbolicSafety
