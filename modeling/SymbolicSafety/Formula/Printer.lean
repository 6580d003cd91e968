import SymbolicSafety.Formula.Builders
import SymbolicSafety.Layout.Highlight

namespace SymbolicSafety

/-! Formulas as text. Operators bind, from loosest to tightest: the
conditional, equivalence, implication, disjunction, conjunction, negation,
comparisons, sums and differences, products and quotients, unary minus, prime.
Parentheses are written wherever reading would otherwise build another tree. -/

namespace Formula

def Kind.precedence : Kind → Nat
  | .ite => 1
  | .iff => 2
  | .implies => 3
  | .or => 4
  | .and => 5
  | .not => 6
  | .eq | .neq | .lt | .leq | .gt | .geq => 7
  | .add | .sub => 8
  | .mul | .div | .mod => 9
  | .neg => 10
  | .prime => 11
  | .true | .false | .int | .current | .version => 255

/-- Whether an operand of a node of kind `parent` stands in parentheses.
Chains of one unary operator need none. A literal needs them under a minus,
which would otherwise become part of it, and a negative one under a prime. A
negation encloses everything that is not primed or an atom. -/
def needsParens (operand : Formula) (parent : Kind) : Bool :=
  if operand.kind = parent ∧ (parent = .not ∨ parent = .neg ∨ parent = .prime) then
    false
  else
    match operand with
    | .int value => parent = .neg || (parent = .prime && value < 0)
    | _ =>
        if parent = .not then
          operand.kind.precedence < Kind.prime.precedence
        else
          operand.kind.precedence ≤ parent.precedence

end Formula

def BinaryOp.text : BinaryOp → String
  | .implies => "=>"
  | .iff => "<=>"
  | .eq => "="
  | .neq => "!="
  | .lt => "<"
  | .leq => "<="
  | .gt => ">"
  | .geq => ">="
  | .sub => "-"
  | .div => "/"
  | .mod => "%"

def NaryOp.text : NaryOp → String
  | .and => "/\\"
  | .or => "\\/"
  | .add => "+"
  | .mul => "*"

namespace Formula

abbrev Printed := Document Highlight

/-- An operand as it stands below a node of kind `parent`, inside `depth` pairs
of parentheses; `inner` prints it at a given depth. -/
def enclose (parent : Kind) (operand : Formula) (depth : Nat) (inner : Nat → Printed) : Printed :=
  if operand.needsParens parent then
    (Document.concat
      [.styled (.paren depth) "(", inner (depth + 1), .styled (.paren depth) ")"]).grouped
  else
    inner depth

mutual

@[simp] def document : Formula → Nat → Printed
  | .bool value, _ => .styled .keyword (if value then "true" else "false")
  | .int value, _ => .styled .literal value.toInt.repr
  | .symbol (.current var), _ => .styled .identifier var.name
  | .symbol (.version var index), _ =>
      .concat [.styled .identifier var.name, .styled .version ("@" ++ index.toNat.repr)]
  | .unary op operand, depth =>
      let inner := enclose op.kind operand depth operand.document
      match op with
      | .prime => .concat [inner, .styled .operator "'"]
      | .not => .concat [.styled .operator "!", inner]
      | .neg => .concat [.styled .operator "-", inner]
  | .binary op left right, depth =>
      (Document.concat
        [enclose op.kind left depth left.document, .space, .styled .operator op.text, .line,
          enclose op.kind right depth right.document]).grouped
  | .nary op operands, depth =>
      ((Document.separated (.concat [.space, .styled .operator op.text, .line])
        (documents op.kind operands depth)).indented 2).grouped
  | .ite condition consequent alternative, depth =>
      ((Document.concat
        [.styled .keyword "if", .space, enclose .ite condition depth condition.document, .line,
          .styled .keyword "then", .space, enclose .ite consequent depth consequent.document,
          .line, .styled .keyword "else", .space,
          enclose .ite alternative depth alternative.document]).indented 2).grouped

def documents (parent : Kind) : List Formula → Nat → List Printed
  | [], _ => []
  | operand :: rest, depth =>
      enclose parent operand depth operand.document :: documents parent rest depth

end

end Formula

end SymbolicSafety
