import SymbolicSafety.Grammar.Lexer
import SymbolicSafety.Grammar.Tree

namespace SymbolicSafety

/-! Reading tokens as a formula. There is one reader for each level of binding
strength, and each is given the reader of whole formulas for what stands inside
parentheses and conditionals. The next token always decides what to read, so
nothing is ever read twice and a fault is found at the first token that cannot
continue. -/

namespace Parser

/-- A reader consumes some tokens and leaves the rest. -/
abbrev Reader (α : Type) := List Token → Except ReadError (α × List Token)

def refuse (tokens : List Token) : Except ReadError (α × List Token) :=
  .error (.parsing tokens.head?)

def expect (token : Token) : List Token → Except ReadError (List Token)
  | [] => .error (.parsing none)
  | found :: rest => if found = token then .ok rest else .error (.parsing (some found))

/-! ## Atoms and unary operators -/

/-- A literal, a name, a name with a version, or a formula in parentheses. A
version that does not exist is held against the name. -/
def atom (formula : Reader Tree) : Reader Tree
  | .trueWord :: rest => .ok (.bool true, rest)
  | .falseWord :: rest => .ok (.bool false, rest)
  | .literal value :: rest => .ok (.int value, rest)
  | .name name :: .atSign :: .literal index :: rest =>
      match Version.ofInt? index.toInt with
      | some index => .ok (.version name index, rest)
      | none => .error (.parsing (some (.name name)))
  | .name _ :: .atSign :: rest => refuse rest
  | .name name :: rest => .ok (.current name, rest)
  | .openParen :: rest => do
      let (inner, rest) ← formula rest
      let rest ← expect .closeParen rest
      pure (.group inner, rest)
  | tokens => refuse tokens

def primes (operand : Tree) : List Token → Tree × List Token
  | .tick :: rest => primes (.unary .prime operand) rest
  | tokens => (operand, tokens)

def primed (formula : Reader Tree) : Reader Tree := fun tokens => do
  let (operand, rest) ← atom formula tokens
  pure (primes operand rest)

/-- A minus is part of a bare literal without a sign. -/
def negated : Tree → Tree
  | .int value => if 0 ≤ value then .int (-value) else .unary .neg (.int value)
  | operand => .unary .neg operand

def signed (formula : Reader Tree) : Reader Tree
  | .minus :: rest => do
      let (operand, rest) ← signed formula rest
      pure (negated operand, rest)
  | tokens => primed formula tokens

/-! ## Chains of binary operators -/

/-- Operands each introduced by an operator, as long as there is one. Each
takes at least one token, so `steps` need not exceed the number of tokens. -/
def continued (operator : Token → Option β) (operand : Reader Tree) :
    Nat → Reader (List (β × Tree))
  | 0, tokens => .ok ([], tokens)
  | _ + 1, [] => .ok ([], [])
  | steps + 1, token :: rest =>
      match operator token with
      | none => .ok ([], token :: rest)
      | some op => do
          let (next, rest) ← operand rest
          let (more, rest) ← continued operator operand steps rest
          pure ((op, next) :: more, rest)

def chain (operator : Token → Option β) (operand : Reader Tree)
    (build : Tree → List (β × Tree) → Tree) : Reader Tree := fun tokens => do
  let (first, rest) ← operand tokens
  let (more, rest) ← continued operator operand rest.length rest
  pure (build first more, rest)

def closeRun (op : NaryOp) : List Tree → Tree
  | [operand] => operand
  | operands => .nary op operands

/-- From left to right, operands joined by the list operator `op` are collected
into one node; any other operator closes the run and takes it as its left
operand. -/
def buildRuns (op : NaryOp) (run : List Tree) : List (Option BinaryOp × Tree) → Tree
  | [] => closeRun op run
  | (none, operand) :: rest => buildRuns op (run ++ [operand]) rest
  | (some other, operand) :: rest =>
      buildRuns op [.binary other (closeRun op run) operand] rest

def runs (op : NaryOp) (operator : Token → Option (Option BinaryOp)) (operand : Reader Tree) :
    Reader Tree :=
  chain operator operand fun first more => buildRuns op [first] more

def productOperator : Token → Option (Option BinaryOp)
  | .star => some none
  | .slash => some (some .div)
  | .percent => some (some .mod)
  | _ => none

def sumOperator : Token → Option (Option BinaryOp)
  | .plus => some none
  | .minus => some (some .sub)
  | _ => none

def product (formula : Reader Tree) : Reader Tree := runs .mul productOperator (signed formula)

def sum (formula : Reader Tree) : Reader Tree := runs .add sumOperator (product formula)

/-! ## Comparisons and connectives -/

def comparisonOperator : Token → Option BinaryOp
  | .equal => some .eq
  | .unequal => some .neq
  | .less => some .lt
  | .lessEqual => some .leq
  | .greater => some .gt
  | .greaterEqual => some .geq
  | _ => none

/-- At most one comparison: `x < y < z` is not a formula. -/
def comparison (formula : Reader Tree) : Reader Tree := fun tokens => do
  let (left, rest) ← sum formula tokens
  match rest with
  | [] => pure (left, [])
  | token :: after =>
      match comparisonOperator token with
      | none => pure (left, token :: after)
      | some op =>
          let (right, rest) ← sum formula after
          pure (.binary op left right, rest)

def negation (formula : Reader Tree) : Reader Tree
  | .bang :: rest => do
      let (operand, rest) ← negation formula rest
      pure (.unary .not operand, rest)
  | tokens => comparison formula tokens

def only (token : Token) (found : Token) : Option Unit := if found = token then some () else none

def joined (op : NaryOp) (token : Token) (operand : Reader Tree) : Reader Tree :=
  chain (only token) operand fun first more => closeRun op (first :: more.map Prod.snd)

def conjunction (formula : Reader Tree) : Reader Tree :=
  joined .and .conjunction (negation formula)

def disjunction (formula : Reader Tree) : Reader Tree :=
  joined .or .disjunction (conjunction formula)

def buildImplication (first : Tree) : List (Unit × Tree) → Tree
  | [] => first
  | (_, next) :: rest => .binary .implies first (buildImplication next rest)

def implication (formula : Reader Tree) : Reader Tree :=
  chain (only .implies) (disjunction formula) buildImplication

def buildEquivalence (first : Tree) (more : List (Unit × Tree)) : Tree :=
  more.foldl (fun built next => .binary .iff built next.2) first

def equivalence (formula : Reader Tree) : Reader Tree :=
  chain (only .iff) (implication formula) buildEquivalence

/-! ## Whole formulas -/

/-- A formula in which parentheses and conditionals are nested less than
`depth` deep. Each level takes a token, so a depth above the number of tokens
excludes nothing. -/
def formula : Nat → Reader Tree
  | 0 => refuse
  | depth + 1 => fun tokens =>
      match tokens with
      | .ifWord :: rest => do
          let (condition, rest) ← formula depth rest
          let rest ← expect .thenWord rest
          let (consequent, rest) ← formula depth rest
          let rest ← expect .elseWord rest
          let (alternative, rest) ← formula depth rest
          pure (.ite condition consequent alternative, rest)
      | tokens => equivalence (formula depth) tokens

def parse (tokens : List Token) : Except ReadError Tree := do
  let (tree, rest) ← formula (tokens.length + 1) tokens
  match rest with
  | [] => pure tree
  | rest => throw (.parsing rest.head?)

end Parser

def Formula.read (scope : Scope) (text : String) : Except ReadError Formula := do
  let tokens ← Lexer.tokenize text
  let tree ← Parser.parse tokens
  tree.resolve scope

end SymbolicSafety
