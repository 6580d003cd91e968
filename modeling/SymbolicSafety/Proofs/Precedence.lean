import SymbolicSafety.Grammar.Parser
import SymbolicSafety.Proofs.Spelling
import SymbolicSafety.Proofs.Versions

namespace SymbolicSafety

/-! The tokens of a printed formula are read as its tree. Each level of binding
strength has its reader, and a reader stops where the next token binds less
tightly than its level. What one level reads, every looser level reads as well. -/

namespace Token

/-- The level at which the token goes on with a formula in front of it. -/
def strength : Token → Nat
  | .iff => 2
  | .implies => 3
  | .disjunction => 4
  | .conjunction => 5
  | .equal | .unequal | .less | .lessEqual | .greater | .greaterEqual => 7
  | .plus | .minus => 8
  | .star | .slash | .percent => 9
  | .tick => 11
  | .atSign => 12
  | _ => 0

/-- The tightest level at which a formula can begin with the token. -/
def lead : Token → Nat
  | .ifWord => 1
  | .bang => 6
  | .minus => 10
  | _ => 12

end Token

namespace Parser

def reader (depth : Nat) : Nat → Reader Tree
  | 0 | 1 => formula (depth + 1)
  | 2 => equivalence (formula depth)
  | 3 => implication (formula depth)
  | 4 => disjunction (formula depth)
  | 5 => conjunction (formula depth)
  | 6 => negation (formula depth)
  | 7 => comparison (formula depth)
  | 8 => sum (formula depth)
  | 9 => product (formula depth)
  | 10 => signed (formula depth)
  | 11 => primed (formula depth)
  | _ => atom (formula depth)

def Stops (level : Nat) (rest : List Token) : Prop := ∀ token ∈ rest.head?, token.strength < level

def Leads (level : Nat) (tokens : List Token) : Prop :=
  ∃ first more, tokens = first :: more ∧ level ≤ first.lead

/-- The tokens are read as the tree wherever they stop. -/
def Reads (read : Reader Tree) (level : Nat) (tokens : List Token) (tree : Tree) : Prop :=
  ∀ rest, Stops level rest → read (tokens ++ rest) = .ok (tree, rest)

theorem Stops.mono {level higher : Nat} {rest : List Token} (stops : Stops level rest)
    (le : level ≤ higher) : Stops higher rest :=
  fun token member => Nat.lt_of_lt_of_le (stops token member) le

theorem stops_cons {level : Nat} {token : Token} {rest : List Token}
    (weaker : token.strength < level) : Stops level (token :: rest) := by
  intro found member
  obtain rfl : token = found := by simpa using member
  exact weaker

@[simp] theorem expect_self (token : Token) (rest : List Token) :
    expect token (token :: rest) = .ok rest := if_pos rfl

/-! ## Chains -/

theorem stops_separated {α : Type} {level : Nat} {separator : α → Token} {rest : List Token}
    {parts : List α} (binds : ∀ part ∈ parts, (separator part).strength = level)
    (stops : Stops level rest) (written : α → List Token) :
    Stops (level + 1) (parts.flatMap (fun part => separator part :: written part) ++ rest) := by
  cases parts with
  | nil => exact stops.mono (Nat.le_succ level)
  | cons next _ =>
      apply stops_cons
      rw [binds next List.mem_cons_self]
      exact Nat.lt_succ_self level

theorem operator_eq_none {β : Type} {operator : Token → Option β} {level : Nat} {token : Token}
    {more : List Token}
    (binds : ∀ token found, operator token = some found → token.strength = level)
    (stops : Stops level (token :: more)) : operator token = none := by
  cases found : operator token with
  | none => rfl
  | some op =>
      have weaker := stops token rfl
      have same := binds token op found
      omega

theorem continued_of_stops {β : Type} {operator : Token → Option β} {level steps : Nat}
    {rest : List Token} (operand : Reader Tree)
    (binds : ∀ token found, operator token = some found → token.strength = level)
    (stops : Stops level rest) (enough : rest.length ≤ steps) :
    continued operator operand steps rest = .ok ([], rest) := by
  cases rest with
  | nil => cases steps <;> rfl
  | cons token more =>
      cases steps with
      | zero => cases enough
      | succ steps => simp [continued, operator_eq_none binds stops]

section Chains

variable {α β : Type} {operator : Token → Option β} {operand : Reader Tree} {level : Nat}
  {separator : α → Token} {op : α → β} {parts : List α} {written : α → List Token}
  {tree : α → Tree}
  (separates : ∀ part ∈ parts, operator (separator part) = some (op part))
  (binds : ∀ token found, operator token = some found → token.strength = level)
  (each : ∀ part ∈ parts, Reads operand (level + 1) (written part) (tree part))

include separates binds each

theorem continued_append {rest : List Token} (stops : Stops level rest) {steps : Nat}
    (enough : (parts.flatMap (fun part => separator part :: written part) ++ rest).length ≤
      steps) :
    continued operator operand steps
        (parts.flatMap (fun part => separator part :: written part) ++ rest) =
      .ok (parts.map fun part => (op part, tree part), rest) := by
  induction parts generalizing steps with
  | nil => exact continued_of_stops operand binds stops (by simpa using enough)
  | cons part more induction =>
      obtain ⟨first, others⟩ := List.forall_mem_cons.mp each
      obtain ⟨separated, separatesMore⟩ := List.forall_mem_cons.mp separates
      simp only [List.flatMap_cons, List.cons_append, List.append_assoc, List.length_cons,
        List.length_append] at enough ⊢
      cases steps with
      | zero => omega
      | succ steps =>
          have stopsPart := stops_separated
            (fun part member => binds _ _ (separatesMore part member)) stops written
          have fewer : (more.flatMap (fun part => separator part :: written part) ++ rest).length ≤
              steps := by
            rw [List.length_append]
            omega
          simp [continued, separated, first _ stopsPart, induction separatesMore others fewer]

theorem chain_append (build : Tree → List (β × Tree) → Tree) {start : List Token} {leading : Tree}
    (first : Reads operand (level + 1) start leading) :
    Reads (chain operator operand build) level
      (start ++ parts.flatMap fun part => separator part :: written part)
      (build leading (parts.map fun part => (op part, tree part))) := by
  intro rest stops
  have stopsFirst := stops_separated (fun part member => binds _ _ (separates part member)) stops
    written
  have later := continued_append separates binds each stops (Nat.le_refl _)
  simp only [List.append_assoc, chain, first _ stopsFirst, bind, Except.bind, later, pure,
    Except.pure]

end Chains

theorem Reads.pair {β : Type} {operator : Token → Option β} {operand : Reader Tree} {level : Nat}
    {separator : Token} {op : β} {left right : List Token} {first second : Tree}
    (build : Tree → List (β × Tree) → Tree) (readsLeft : Reads operand (level + 1) left first)
    (readsRight : Reads operand (level + 1) right second)
    (separates : operator separator = some op)
    (binds : ∀ token found, operator token = some found → token.strength = level) :
    Reads (Parser.chain operator operand build) level (left ++ separator :: right)
      (build first [(op, second)]) := by
  have each : ∀ part ∈ [right], Reads operand (level + 1) (id part) second := by simpa
  simpa using chain_append (fun _ _ => separates) binds each build readsLeft

theorem Reads.chain {β : Type} {operator : Token → Option β} {operand : Reader Tree} {level : Nat}
    {build : Tree → List (β × Tree) → Tree} {tokens : List Token} {tree : Tree}
    (reads : Reads operand (level + 1) tokens tree)
    (binds : ∀ token found, operator token = some found → token.strength = level)
    (alone : build tree [] = tree) :
    Reads (Parser.chain operator operand build) level tokens tree := by
  intro rest stops
  have ends := continued_of_stops operand binds stops (Nat.le_refl _)
  simp only [Parser.chain, reads rest (stops.mono (Nat.le_succ level)), bind, Except.bind, ends,
    pure, Except.pure, alone]

/-! ## The operators of each level -/

theorem strength_only {separator token : Token} {found : Unit}
    (accepted : only separator token = some found) : token.strength = separator.strength := by
  unfold only at accepted
  split at accepted
  next same => rw [same]
  next => cases accepted

theorem strength_sumOperator {token : Token} {found : Option BinaryOp}
    (accepted : sumOperator token = some found) : token.strength = 8 := by
  cases token <;> first | rfl | cases accepted

theorem strength_productOperator {token : Token} {found : Option BinaryOp}
    (accepted : productOperator token = some found) : token.strength = 9 := by
  cases token <;> first | rfl | cases accepted

theorem strength_comparisonOperator {token : Token} {found : BinaryOp}
    (accepted : comparisonOperator token = some found) : token.strength = 7 := by
  cases token <;> first | rfl | cases accepted

/-! ## Several operands of a list operator -/

theorem buildRuns_same {α : Type} (op : NaryOp) (run : List Tree) (parts : List α)
    (tree : α → Tree) :
    buildRuns op run (parts.map fun part => (none, tree part)) =
      closeRun op (run ++ parts.map tree) := by
  induction parts generalizing run with
  | nil => simp [buildRuns]
  | cons part rest induction => simp [buildRuns, induction]

section Lists

variable {α : Type} {operand : Reader Tree} {level : Nat} {separator : Token}
  {second : α} {rest : List α} {written : α → List Token} {tree : α → Tree} {start : List Token}
  {leading : Tree}

theorem Reads.joined_list (op : NaryOp)
    (first : Reads operand (separator.strength + 1) start leading)
    (each : ∀ part ∈ second :: rest,
      Reads operand (separator.strength + 1) (written part) (tree part)) :
    Reads (joined op separator operand) separator.strength
      (start ++ (second :: rest).flatMap fun part => separator :: written part)
      (.nary op (leading :: (second :: rest).map tree)) := by
  have separates : only separator separator = some () := if_pos rfl
  have whole := chain_append (fun _ _ => separates) (fun _ _ => strength_only) each
    (fun first more => closeRun op (first :: more.map Prod.snd)) first
  simpa [joined, closeRun, Function.comp_def] using whole

theorem Reads.runs_list (op : NaryOp) (operator : Token → Option (Option BinaryOp))
    (separates : operator separator = some none)
    (binds : ∀ token found, operator token = some found → token.strength = level)
    (first : Reads operand (level + 1) start leading)
    (each : ∀ part ∈ second :: rest, Reads operand (level + 1) (written part) (tree part)) :
    Reads (runs op operator operand) level
      (start ++ (second :: rest).flatMap fun part => separator :: written part)
      (.nary op (leading :: (second :: rest).map tree)) := by
  have whole := chain_append (fun _ _ => separates) binds each
    (fun first more => buildRuns op [first] more) first
  rwa [buildRuns_same] at whole

end Lists

/-! ## From a level to the looser ones -/

variable {depth level : Nat} {tokens : List Token} {tree : Tree} {operand : Reader Tree}

theorem Reads.joined (op : NaryOp) (separator : Token)
    (reads : Reads operand (separator.strength + 1) tokens tree) :
    Reads (Parser.joined op separator operand) separator.strength tokens tree :=
  reads.chain (fun _ _ => strength_only) rfl

theorem Reads.runs (op : NaryOp) {operator : Token → Option (Option BinaryOp)}
    (reads : Reads operand (level + 1) tokens tree)
    (binds : ∀ token found, operator token = some found → token.strength = level) :
    Reads (Parser.runs op operator operand) level tokens tree :=
  reads.chain binds rfl

theorem primes_of_stops {rest : List Token} (stops : Stops 11 rest) (operand : Tree) :
    primes operand rest = (operand, rest) := by
  unfold primes
  split
  next more => exact absurd (stops .tick rfl) (by decide)
  next => rfl

theorem Reads.primed (reads : Reads (atom (formula depth)) 12 tokens tree) :
    Reads (Parser.primed (formula depth)) 11 tokens tree := by
  intro rest stops
  simp [Parser.primed, reads rest (stops.mono (by decide)), primes_of_stops stops]

theorem Reads.signed (reads : Reads (Parser.primed (formula depth)) 11 tokens tree)
    (leads : Leads 11 tokens) : Reads (Parser.signed (formula depth)) 10 tokens tree := by
  intro rest stops
  obtain ⟨first, more, rfl, lead⟩ := leads
  unfold Parser.signed
  split
  next same =>
    obtain rfl : first = .minus := (List.cons.inj same).1
    exact absurd lead (by decide)
  next => exact reads rest (stops.mono (by decide))

theorem Reads.comparison (reads : Reads (sum (formula depth)) 8 tokens tree) :
    Reads (Parser.comparison (formula depth)) 7 tokens tree := by
  intro rest stops
  simp only [Parser.comparison, reads rest (stops.mono (by decide)), bind, Except.bind]
  cases rest with
  | nil => rfl
  | cons token more =>
      have ends := operator_eq_none (fun _ _ => strength_comparisonOperator) stops
      simp [ends]

theorem Reads.negation (reads : Reads (Parser.comparison (formula depth)) 7 tokens tree)
    (leads : Leads 7 tokens) : Reads (Parser.negation (formula depth)) 6 tokens tree := by
  intro rest stops
  obtain ⟨first, more, rfl, lead⟩ := leads
  unfold Parser.negation
  split
  next same =>
    obtain rfl : first = .bang := (List.cons.inj same).1
    exact absurd lead (by decide)
  next => exact reads rest (stops.mono (by decide))

theorem Reads.formula (reads : Reads (equivalence (formula depth)) 2 tokens tree)
    (leads : Leads 2 tokens) : Reads (Parser.formula (depth + 1)) 1 tokens tree := by
  intro rest stops
  obtain ⟨first, more, rfl, lead⟩ := leads
  unfold Parser.formula
  split
  next same =>
    obtain rfl : first = .ifWord := (List.cons.inj same).1
    exact absurd lead (by decide)
  next => exact reads rest (stops.mono (by decide))

/-- What a reader reads, the reader of the next looser level reads, unless it
begins with a token that means something there. -/
theorem Reads.looser (bounded : level < 12) (positive : 0 < level)
    (reads : Reads (reader depth (level + 1)) (level + 1) tokens tree)
    (leads : Leads (level + 1) tokens) : Reads (reader depth level) level tokens tree := by
  match level, bounded, positive with
  | 1, _, _ => exact Reads.formula reads leads
  | 2, _, _ => exact Reads.chain reads (fun _ _ => strength_only) rfl
  | 3, _, _ => exact Reads.chain reads (fun _ _ => strength_only) rfl
  | 4, _, _ => exact Reads.joined .or .disjunction reads
  | 5, _, _ => exact Reads.joined .and .conjunction reads
  | 6, _, _ => exact Reads.negation reads leads
  | 7, _, _ => exact Reads.comparison reads
  | 8, _, _ => exact Reads.runs .add reads fun _ _ => strength_sumOperator
  | 9, _, _ => exact Reads.runs .mul reads fun _ _ => strength_productOperator
  | 10, _, _ => exact Reads.signed reads leads
  | 11, _, _ => exact Reads.primed reads

theorem Leads.mono {lower : Nat} (leads : Leads level tokens) (le : lower ≤ level) :
    Leads lower tokens := by
  obtain ⟨first, more, same, lead⟩ := leads
  exact ⟨first, more, same, Nat.le_trans le lead⟩

theorem Reads.down {lower : Nat} (reads : Reads (reader depth level) level tokens tree)
    (leads : Leads level tokens) (bounded : level ≤ 12) (positive : 0 < lower)
    (le : lower ≤ level) : Reads (reader depth lower) lower tokens tree := by
  induction le with
  | refl => exact reads
  | @step level le induction =>
      have inner : lower ≤ level := le
      apply induction
      · exact reads.looser (by omega) (by omega) leads
      · exact leads.mono (Nat.le_succ level)
      · omega

end Parser

namespace Formula

open Parser

/-! ## The tree of a printed formula -/

def grouped (parent : Kind) (operand : Formula) (inner : Tree) : Tree :=
  if operand.needsParens parent then .group inner else inner

mutual

def tree : Formula → Tree
  | .bool value => .bool value
  | .int value => .int value
  | .symbol (.current var) => .current var.name
  | .symbol (.version var index) => .version var.name index
  | .unary op operand => .unary op (grouped op.kind operand operand.tree)
  | .binary op left right =>
      .binary op (grouped op.kind left left.tree) (grouped op.kind right right.tree)
  | .nary op operands => .nary op (trees op.kind operands)
  | .ite condition consequent alternative =>
      .ite (grouped .ite condition condition.tree) (grouped .ite consequent consequent.tree)
        (grouped .ite alternative alternative.tree)

def trees (parent : Kind) : List Formula → List Tree
  | [] => []
  | operand :: rest => grouped parent operand operand.tree :: trees parent rest

end

@[simp] theorem trees_eq_map (parent : Kind) (operands : List Formula) :
    trees parent operands =
      operands.map fun operand => grouped parent operand operand.tree := by
  induction operands with
  | nil => rfl
  | cons head rest induction => rw [trees, induction, List.map_cons]

def level : Formula → Nat
  | .int value => if value < 0 then 10 else 12
  | formula => min formula.kind.precedence 12

theorem level_le (formula : Formula) : formula.level ≤ 12 := by
  unfold level
  split
  · split <;> decide
  · exact Nat.min_le_right ..

theorem level_pos (formula : Formula) : 0 < formula.level := by
  have positive : 0 < formula.kind.precedence := by
    cases formula.kind <;> decide
  unfold level
  split
  · split <;> decide
  · omega

theorem le_level_int (value : Int64) : 10 ≤ (Formula.int value).level := by
  rw [level]
  split <;> decide

theorem level_of_not_literal {formula : Formula} (other : ∀ value, formula ≠ .int value) :
    formula.level = min formula.kind.precedence 12 := by
  cases formula with
  | int value => exact absurd rfl (other value)
  | _ => rfl

theorem bare_cases {operand : Formula} {parent : Kind} (other : ∀ value, operand ≠ .int value)
    (bare : operand.needsParens parent = false) :
    operand.kind = parent ∧ (parent = .not ∨ parent = .neg ∨ parent = .prime) ∨
      parent = .not ∧ Kind.prime.precedence ≤ operand.kind.precedence ∨
      parent ≠ .not ∧ parent.precedence < operand.kind.precedence := by
  have equation : operand.needsParens parent =
      if operand.kind = parent ∧ (parent = .not ∨ parent = .neg ∨ parent = .prime) then false
      else if parent = .not then operand.kind.precedence < Kind.prime.precedence
      else operand.kind.precedence ≤ parent.precedence := by
    cases operand with
    | int value => exact absurd rfl (other value)
    | _ => rfl
  rw [equation] at bare
  split at bare
  next chained => exact .inl chained
  next =>
    split at bare
    next negation => exact .inr (.inl ⟨negation, Nat.not_lt.mp (of_decide_eq_false bare)⟩)
    next unrelated => exact .inr (.inr ⟨unrelated, Nat.not_le.mp (of_decide_eq_false bare)⟩)

theorem lt_level_of_bare {operand : Formula} {parent : Kind} (loose : parent.precedence ≤ 9)
    (notUnary : parent ≠ .not) (bare : operand.needsParens parent = false) :
    parent.precedence < operand.level := by
  by_cases literal : ∃ value, operand = .int value
  · obtain ⟨value, rfl⟩ := literal
    have signed := le_level_int value
    omega
  · have other : ∀ value, operand ≠ .int value := not_exists.mp literal
    have notPrefix : ¬ (parent = .not ∨ parent = .neg ∨ parent = .prime) := by
      rintro (rfl | rfl | rfl)
      · exact notUnary rfl
      · exact absurd loose (by decide)
      · exact absurd loose (by decide)
    have tighter : parent.precedence < operand.kind.precedence := by
      rcases bare_cases other bare with ⟨-, chained⟩ | ⟨negation, -⟩ | ⟨-, tighter⟩
      · exact absurd chained notPrefix
      · exact absurd negation notUnary
      · exact tighter
    rw [level_of_not_literal other]
    omega

theorem le_level_of_bare_unary {operand : Formula} (op : UnaryOp)
    (bare : operand.needsParens op.kind = false) : op.kind.precedence ≤ operand.level := by
  by_cases literal : ∃ value, operand = .int value
  · obtain ⟨value, rfl⟩ := literal
    have signed := le_level_int value
    cases op with
    | prime =>
        have nonnegative : ¬ value < 0 := by simpa [needsParens, kind, UnaryOp.kind] using bare
        rw [level, if_neg nonnegative]
        decide
    | not => exact Nat.le_trans (by decide) signed
    | neg => exact signed
  · have other : ∀ value, operand ≠ .int value := not_exists.mp literal
    have loose : op.kind.precedence ≤ Kind.prime.precedence := by cases op <;> decide
    have limit : Kind.prime.precedence ≤ 12 := by decide
    rw [level_of_not_literal other]
    rcases bare_cases other bare with ⟨same, -⟩ | ⟨-, tight⟩ | ⟨-, tighter⟩
    · rw [same]
      omega
    · omega
    · omega

theorem level_of_bare_prime {operand : Formula} (bare : operand.needsParens .prime = false)
    (notPrimed : operand.kind ≠ .prime) : operand.level = 12 := by
  by_cases literal : ∃ value, operand = .int value
  · obtain ⟨value, rfl⟩ := literal
    have nonnegative : ¬ value < 0 := by simpa [needsParens, kind] using bare
    rw [level, if_neg nonnegative]
  · have other : ∀ value, operand ≠ .int value := not_exists.mp literal
    have tighter : Kind.prime.precedence < operand.kind.precedence := by
      simpa [notPrimed] using bare_cases other bare
    rw [level_of_not_literal other]
    exact Nat.min_eq_right tighter

/-- The tokens of a formula are read as its tree by the reader of its level, and
before any primes if it is primed itself. -/
structure Readable (formula : Formula) : Prop where
  leads : Leads formula.level formula.spelling
  reads (depth : Nat) : formula.spelling.length ≤ depth →
    Reads (reader depth formula.level) formula.level formula.spelling formula.tree
  primes (depth : Nat) : formula.spelling.length ≤ depth → formula.kind = .prime → ∀ rest,
    Parser.primed (Parser.formula depth) (formula.spelling ++ rest) =
      .ok (Parser.primes formula.tree rest)

section Operands

variable {operand : Formula} {parent : Kind} {lower : Nat} (readable : operand.Readable)
  (depth : Nat)

include readable

theorem Readable.group (fits : operand.spelling.length < depth) :
    Reads (atom (Parser.formula depth)) 12 (.openParen :: (operand.spelling ++ [.closeParen]))
      (.group operand.tree) := by
  intro rest _
  obtain ⟨depth, rfl⟩ : ∃ less, depth = less + 1 := Nat.exists_eq_add_one.mpr (by omega)
  have inner := (readable.reads depth (by omega)).down readable.leads operand.level_le
    Nat.one_pos operand.level_pos
  have stops : Stops 1 (.closeParen :: rest) := stops_cons (by decide)
  have read : Parser.formula (depth + 1) (operand.spelling ++ .closeParen :: rest) =
      .ok (operand.tree, .closeParen :: rest) := inner _ stops
  simp [atom, read]

variable (tight : operand.needsParens parent = false → lower ≤ operand.level)
include tight

theorem Readable.leads_enclosed (bounded : lower ≤ 12) :
    Leads lower (enclosed parent operand operand.spelling) := by
  unfold enclosed
  split
  next => exact ⟨_, _, rfl, bounded⟩
  next bare => exact readable.leads.mono (tight (Bool.eq_false_iff.mpr bare))

theorem Readable.reads_enclosed (positive : 0 < lower) (bounded : lower ≤ 12)
    (fits : (enclosed parent operand operand.spelling).length ≤ depth) :
    Reads (reader depth lower) lower (enclosed parent operand operand.spelling)
      (grouped parent operand operand.tree) := by
  unfold enclosed grouped at *
  split
  next parens =>
    simp only [parens, if_true, List.length_cons, List.length_append] at fits
    have group : Reads (reader depth 12) 12 _ _ := readable.group depth (by omega)
    exact group.down ⟨_, _, rfl, Nat.le_refl 12⟩ (Nat.le_refl 12) positive bounded
  next bare =>
    have reads := readable.reads depth (by simpa [bare] using fits)
    exact reads.down readable.leads operand.level_le positive (tight (Bool.eq_false_iff.mpr bare))

end Operands

/-! ## Every formula is readable -/

theorem readable_of_atom {formula : Formula} (level : formula.level = 12)
    (leads : Leads 12 formula.spelling) (notPrimed : formula.kind ≠ .prime)
    (reads : ∀ depth, Reads (atom (Parser.formula depth)) 12 formula.spelling formula.tree) :
    formula.Readable where
  leads := level ▸ leads
  reads depth _ := by
    rw [level]
    exact reads depth
  primes _ _ primed := absurd primed notPrimed

theorem readable_bool (value : Bool) : (Formula.bool value).Readable := by
  cases value with
  | true => exact readable_of_atom rfl ⟨_, _, rfl, Nat.le_refl 12⟩ (by decide) fun _ _ _ => rfl
  | false => exact readable_of_atom rfl ⟨_, _, rfl, Nat.le_refl 12⟩ (by decide) fun _ _ _ => rfl

theorem readable_int {value : Int64} (inside : value ≠ Int64.minValue) :
    (Formula.int value).Readable := by
  by_cases negative : value < 0
  · have spelled : (Formula.int value).spelling = [.minus, .literal (-value)] := by
      simp [spelling, negative]
    have level : (Formula.int value).level = 10 := by simp [level, negative]
    have nonnegative : 0 ≤ -value := by
      have below : value.toInt < 0 := Int64.lt_iff_toInt_lt.mp negative
      rw [Int64.le_iff_toInt_le, toInt_neg_of_ne_minValue inside, Int64.toInt_zero]
      omega
    refine ⟨level ▸ ⟨_, _, spelled, Nat.le_refl 10⟩, fun depth _ rest stops => ?_, nofun⟩
    rw [level] at stops ⊢
    rw [spelled]
    simp [reader, signed, Parser.primed, atom, primes_of_stops (stops.mono (by decide)),
      negated, nonnegative, tree]
  · have spelled : (Formula.int value).spelling = [.literal value] := by simp [spelling, negative]
    have level : (Formula.int value).level = 12 := by simp [level, negative]
    apply readable_of_atom level ⟨_, _, spelled, Nat.le_refl 12⟩ (by simp [kind])
    intro depth rest _
    rw [spelled]
    simp [atom, tree]

theorem readable_symbol (symbol : Symbol) : (Formula.symbol symbol).Readable := by
  cases symbol with
  | current var =>
      apply readable_of_atom rfl ⟨.name var.name, _, rfl, Nat.le_refl 12⟩ (by simp [kind])
      intro depth rest stops
      cases rest with
      | nil => simp [spelling, tree, atom]
      | cons token more =>
          have notSign : token ≠ .atSign := by
            rintro rfl
            exact absurd (stops .atSign rfl) (by decide)
          simp [spelling, tree, atom, notSign]
  | version var index =>
      apply readable_of_atom rfl ⟨.name var.name, _, rfl, Nat.le_refl 12⟩ (by simp [kind])
      intro depth rest _
      have fits : (Int64.ofNat index.toNat).toInt = index.toNat :=
        Int64.toInt_ofNat_of_lt (Nat.lt_trans index.toNat_lt (by decide))
      have found : Version.ofInt? index.toNat = some index :=
        (Version.ofInt?_eq_some_iff _ _).mpr rfl
      simp [spelling, tree, atom, fits, found]

theorem Readable.primes_enclosed {operand : Formula} {depth : Nat} (readable : operand.Readable)
    (fits : (enclosed .prime operand operand.spelling).length ≤ depth) {rest : List Token}
    (stops : Stops 12 rest) :
    Parser.primed (Parser.formula depth) (enclosed .prime operand operand.spelling ++ rest) =
      .ok (Parser.primes (grouped .prime operand operand.tree) rest) := by
  by_cases chained : operand.kind = .prime
  · have bare : operand.needsParens .prime = false := by simp [needsParens, chained]
    simp only [enclosed, grouped, bare] at fits ⊢
    exact readable.primes depth fits chained rest
  · have tight : operand.needsParens .prime = false → 12 ≤ operand.level :=
      fun bare => Nat.le_of_eq (level_of_bare_prime bare chained).symm
    have read : atom (Parser.formula depth) _ = .ok (_, rest) :=
      readable.reads_enclosed _ tight (by decide) (by decide) fits rest stops
    simp [Parser.primed, read]

theorem Readable.primed {operand : Formula} (readable : operand.Readable) :
    (Formula.unary .prime operand).Readable := by
  have spelled : (Formula.unary .prime operand).spelling =
      enclosed .prime operand operand.spelling ++ [.tick] := by simp [spelling, UnaryOp.kind]
  have read (depth : Nat) (fits : (Formula.unary .prime operand).spelling.length ≤ depth)
      (rest : List Token) :
      Parser.primed (Parser.formula depth) ((Formula.unary .prime operand).spelling ++ rest) =
        .ok (Parser.primes (Formula.unary .prime operand).tree rest) := by
    rw [spelled, List.length_append] at fits
    have stops : Stops 12 (.tick :: rest) := stops_cons (by decide)
    have before := readable.primes_enclosed (Nat.le_of_add_right_le fits) stops
    simpa [spelled, Parser.primes, tree, UnaryOp.kind] using before
  have tight : operand.needsParens .prime = false → 11 ≤ operand.level :=
    le_level_of_bare_unary .prime
  obtain ⟨first, more, begins, lead⟩ := readable.leads_enclosed tight (by decide)
  refine ⟨⟨first, more ++ [.tick], by rw [spelled, begins, List.cons_append], lead⟩, ?_, ?_⟩
  · intro depth fits rest stops
    have whole := read depth fits rest
    rwa [primes_of_stops stops] at whole
  · intro depth fits _
    exact read depth fits

theorem Readable.not {operand : Formula} (readable : operand.Readable) :
    (Formula.unary .not operand).Readable := by
  have tight : operand.needsParens .not = false → 6 ≤ operand.level :=
    le_level_of_bare_unary .not
  refine ⟨⟨.bang, _, rfl, Nat.le_refl 6⟩, fun depth fits rest stops => ?_, nofun⟩
  have inner := readable.reads_enclosed _ tight (by decide) (by decide) (Nat.le_of_succ_le fits)
  have read : Parser.negation (Parser.formula depth)
      (enclosed .not operand operand.spelling ++ rest) = .ok (_, rest) := inner rest stops
  have step : reader depth 6 (.bang :: (enclosed .not operand operand.spelling ++ rest)) =
      .ok (.unary .not (grouped .not operand operand.tree), rest) := by
    simp [reader, Parser.negation, read]
  exact step

theorem Readable.neg {operand : Formula} (readable : operand.Readable) :
    (Formula.unary .neg operand).Readable := by
  have tight : operand.needsParens .neg = false → 10 ≤ operand.level :=
    le_level_of_bare_unary .neg
  refine ⟨⟨.minus, _, rfl, Nat.le_refl 10⟩, fun depth fits rest stops => ?_, nofun⟩
  have inner := readable.reads_enclosed _ tight (by decide) (by decide) (Nat.le_of_succ_le fits)
  have read : Parser.signed (Parser.formula depth)
      (enclosed .neg operand operand.spelling ++ rest) = .ok (_, rest) := inner rest stops
  have kept : negated (grouped .neg operand operand.tree) =
      .unary .neg (grouped .neg operand operand.tree) := by
    unfold grouped
    split
    next => rfl
    next bare =>
      cases operand with
      | int value => simp [needsParens, kind] at bare
      | symbol symbol => cases symbol <;> simp [tree, negated]
      | _ => simp [tree, negated]
  have step : reader depth 10 (.minus :: (enclosed .neg operand operand.spelling ++ rest)) =
      .ok (.unary .neg (grouped .neg operand operand.tree), rest) := by
    simp [reader, Parser.signed, read, kept]
  exact step

theorem reads_comparison {depth : Nat} {separator : Token} {op : BinaryOp} {left right : List Token}
    {first second : Tree} (readsLeft : Reads (reader depth 8) 8 left first)
    (readsRight : Reads (reader depth 8) 8 right second)
    (compares : comparisonOperator separator = some op) :
    Reads (reader depth 7) 7 (left ++ separator :: right) (.binary op first second) := by
  intro rest stops
  have weaker : separator.strength < 8 := by
    rw [strength_comparisonOperator compares]
    decide
  have before : sum (Parser.formula depth) (left ++ separator :: (right ++ rest)) = .ok (_, _) :=
    readsLeft _ (stops_cons weaker)
  have after : sum (Parser.formula depth) (right ++ rest) = .ok (_, _) :=
    readsRight rest (stops.mono (by decide))
  simp [reader, comparison, before, compares, after]

theorem Readable.binary (op : BinaryOp) {left right : Formula} (readableLeft : left.Readable)
    (readableRight : right.Readable) : (Formula.binary op left right).Readable := by
  have level : (Formula.binary op left right).level = op.kind.precedence := by cases op <;> rfl
  have loose : op.kind.precedence ≤ 9 := by cases op <;> decide
  have notUnary : op.kind ≠ .not := by cases op <;> decide
  have spelled : (Formula.binary op left right).spelling =
      enclosed op.kind left left.spelling ++ op.token :: enclosed op.kind right right.spelling := by
    rw [spelling]
  have tight (operand : Formula) : operand.needsParens op.kind = false →
      op.kind.precedence + 1 ≤ operand.level := lt_level_of_bare loose notUnary
  refine ⟨?_, ?_, by cases op <;> simp [kind, BinaryOp.kind]⟩
  · obtain ⟨first, more, begins, lead⟩ := readableLeft.leads_enclosed (tight left) (by omega)
    rw [level, spelled, begins]
    exact ⟨first, _, rfl, by omega⟩
  · intro depth fits
    rw [spelled, List.length_append, List.length_cons] at fits
    have readsLeft := readableLeft.reads_enclosed depth (tight left) (by omega)
      (by omega) (by omega)
    have readsRight := readableRight.reads_enclosed depth (tight right) (by omega)
      (by omega) (by omega)
    rw [level, spelled, tree]
    cases op with
    | implies => exact readsLeft.pair buildImplication readsRight rfl fun _ _ => strength_only
    | iff => exact readsLeft.pair buildEquivalence readsRight rfl fun _ _ => strength_only
    | sub =>
        have separates : sumOperator .minus = some (some .sub) := rfl
        exact readsLeft.pair (buildRuns .add [·]) readsRight separates fun _ _ =>
          strength_sumOperator
    | div =>
        have separates : productOperator .slash = some (some .div) := rfl
        exact readsLeft.pair (buildRuns .mul [·]) readsRight separates fun _ _ =>
          strength_productOperator
    | mod =>
        have separates : productOperator .percent = some (some .mod) := rfl
        exact readsLeft.pair (buildRuns .mul [·]) readsRight separates fun _ _ =>
          strength_productOperator
    | _ => exact reads_comparison readsLeft readsRight rfl

private theorem length_lt_length_flatMap {α : Type} (separator : Token)
    (written : α → List Token) {part : α} {parts : List α} (member : part ∈ parts) :
    (written part).length < (parts.flatMap fun part => separator :: written part).length := by
  obtain ⟨before, after, rfl⟩ := List.append_of_mem member
  rw [List.flatMap_append, List.flatMap_cons, List.length_append, List.length_append,
    List.length_cons]
  omega

theorem Readable.nary (op : NaryOp) {first second : Formula} {rest : List Formula}
    (readable : ∀ operand ∈ first :: second :: rest, operand.Readable) :
    (Formula.nary op (first :: second :: rest)).Readable := by
  have level : (Formula.nary op (first :: second :: rest)).level = op.kind.precedence := by
    cases op <;> rfl
  have loose : op.kind.precedence ≤ 9 := by cases op <;> decide
  have notUnary : op.kind ≠ .not := by cases op <;> decide
  have spelled : (Formula.nary op (first :: second :: rest)).spelling =
      enclosed op.kind first first.spelling ++
        (second :: rest).flatMap fun operand =>
          op.token :: enclosed op.kind operand operand.spelling := by
    simp [spelling, interposed, List.flatMap_map]
  have tight (operand : Formula) : operand.needsParens op.kind = false →
      op.kind.precedence + 1 ≤ operand.level := lt_level_of_bare loose notUnary
  obtain ⟨readableFirst, readableRest⟩ := List.forall_mem_cons.mp readable
  refine ⟨?_, ?_, by cases op <;> simp [kind, NaryOp.kind]⟩
  · obtain ⟨head, more, begins, lead⟩ := readableFirst.leads_enclosed (tight first) (by omega)
    rw [level, spelled, begins]
    exact ⟨head, _, rfl, by omega⟩
  · intro depth fits
    rw [spelled, List.length_append] at fits
    have readsFirst := readableFirst.reads_enclosed depth (tight first) (by omega)
      (by omega) (by omega)
    have readsRest : ∀ operand ∈ second :: rest,
        Reads (reader depth (op.kind.precedence + 1)) (op.kind.precedence + 1)
          (enclosed op.kind operand operand.spelling)
          (grouped op.kind operand operand.tree) := by
      intro operand member
      have shorter := length_lt_length_flatMap op.token
        (fun operand => enclosed op.kind operand operand.spelling) member
      exact (readableRest operand member).reads_enclosed depth (tight operand) (by omega) (by omega)
        (by omega)
    rw [level, spelled, tree, trees_eq_map]
    cases op with
    | and => exact Reads.joined_list .and readsFirst readsRest
    | or => exact Reads.joined_list .or readsFirst readsRest
    | add =>
        exact Reads.runs_list .add sumOperator rfl
          (fun _ _ => strength_sumOperator) readsFirst readsRest
    | mul =>
        exact Reads.runs_list .mul productOperator rfl
          (fun _ _ => strength_productOperator) readsFirst readsRest

theorem Readable.ite {condition consequent alternative : Formula} (first : condition.Readable)
    (second : consequent.Readable) (third : alternative.Readable) :
    (Formula.ite condition consequent alternative).Readable := by
  have tight (operand : Formula) (bare : operand.needsParens .ite = false) : 1 ≤ operand.level :=
    operand.level_pos
  refine ⟨⟨.ifWord, _, by rw [spelling], Nat.le_refl 1⟩, ?_, nofun⟩
  intro depth fits rest stops
  simp only [spelling, List.length_cons, List.length_append] at fits
  obtain ⟨depth, rfl⟩ : ∃ less, depth = less + 1 := Nat.exists_eq_add_one.mpr (by omega)
  have inner (operand : Formula) (readable : operand.Readable)
      (fits : (enclosed .ite operand operand.spelling).length ≤ depth) (rest : List Token)
      (stops : Stops 1 rest) :
      Parser.formula (depth + 1) (enclosed .ite operand operand.spelling ++ rest) =
        .ok (grouped .ite operand operand.tree, rest) :=
    readable.reads_enclosed depth (tight operand) Nat.one_pos (by decide) fits rest stops
  have readAlternative := inner alternative third (by omega) rest stops
  have readConsequent := inner consequent second (by omega)
    (.elseWord :: (enclosed .ite alternative alternative.spelling ++ rest)) (stops_cons (by decide))
  have readCondition := inner condition first (by omega)
    (.thenWord :: (enclosed .ite consequent consequent.spelling ++
      .elseWord :: (enclosed .ite alternative alternative.spelling ++ rest)))
    (stops_cons (by decide))
  have level : (Formula.ite condition consequent alternative).level = 1 := rfl
  rw [level, spelling, tree]
  simp only [List.cons_append, List.append_assoc, reader]
  rw [Parser.formula]
  simp only [readCondition, expect_self, readConsequent, readAlternative, bind, Except.bind, pure,
    Except.pure]

theorem HasLeast.of_child {formula child : Formula} (member : child ∈ formula.children)
    (least : child.HasLeast) : formula.HasLeast :=
  .within member least

/-- The tokens of every formula in which list operators join several operands
and the least integer does not occur are read as its tree. -/
theorem readable {formula : Formula} (branching : formula.Branching) (least : ¬ formula.HasLeast) :
    formula.Readable := by
  induction formula with
  | bool value => exact readable_bool value
  | int value =>
      apply readable_int
      rintro rfl
      exact least .here
  | symbol symbol => exact readable_symbol symbol
  | unary op operand induction =>
      have member : operand ∈ (Formula.unary op operand).children := by simp [children]
      have inner := induction (branching.child member) (mt (.of_child member) least)
      cases op with
      | prime => exact inner.primed
      | not => exact inner.not
      | neg => exact inner.neg
  | binary op left right inductionLeft inductionRight =>
      have first : left ∈ (Formula.binary op left right).children := by simp [children]
      have second : right ∈ (Formula.binary op left right).children := by simp [children]
      exact (inductionLeft (branching.child first) (mt (.of_child first) least)).binary op
        (inductionRight (branching.child second) (mt (.of_child second) least))
  | nary op operands induction =>
      have each : ∀ operand ∈ operands, operand.Readable := fun operand member =>
        induction operand member (branching.child member) (mt (.of_child member) least)
      have several : 2 ≤ operands.length := branching op operands .here
      obtain _ | ⟨first, _ | ⟨second, rest⟩⟩ := operands
      · simp at several
      · simp at several
      · exact .nary op each
  | ite condition consequent alternative first second third =>
      have readableChild (child : Formula)
          (member : child ∈ (Formula.ite condition consequent alternative).children)
          (induction : child.Branching → ¬ child.HasLeast → child.Readable) : child.Readable :=
        induction (branching.child member) (mt (.of_child member) least)
      exact (readableChild condition (by simp [children]) first).ite
        (readableChild consequent (by simp [children]) second)
        (readableChild alternative (by simp [children]) third)

theorem parse_spelling {formula : Formula} (readable : formula.Readable) :
    parse formula.spelling = .ok formula.tree := by
  have reads := (readable.reads formula.spelling.length (Nat.le_refl _)).down readable.leads
    formula.level_le Nat.one_pos formula.level_pos
  have whole : Parser.formula (formula.spelling.length + 1) formula.spelling =
      .ok (formula.tree, []) := by
    simpa [reader] using reads [] (by simp [Stops])
  simp [parse, whole]

end Formula

end SymbolicSafety
