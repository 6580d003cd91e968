import SymbolicSafety.Proofs.Precedence

namespace SymbolicSafety

/-! The grammar of formulas. A derivation says how tokens are made from the rules
of the grammar, and with that which tree they stand for. Operators that group
to the left are derived on the left: a sum goes on with the sum before it. -/

namespace Grammar

/-- What can be derived, from loose to tight. A list operator joins operands in a
`list`. It is a single `term`, or a `run` of several operands of which the first
one is a term. -/
inductive Level where
  | formula
  | equivalence
  | implication
  | list (op : NaryOp)
  | run (op : NaryOp)
  | term (op : NaryOp)
  | negation
  | comparison
  | signed
  | primed
  | atom

def operand : NaryOp → Level
  | .or => .list .and
  | .and => .negation
  | .add => .list .mul
  | .mul => .signed

/-- The other operators of the same strength. Each of them closes a run. -/
def closers : NaryOp → List BinaryOp
  | .and | .or => []
  | .add => [.sub]
  | .mul => [.div, .mod]

def comparisons : List BinaryOp := [.eq, .neq, .lt, .leq, .gt, .geq]

inductive Derivation : Level → Type where
  | conditional (condition consequent alternative : Derivation .formula) : Derivation .formula
  | formula (inner : Derivation .equivalence) : Derivation .formula
  | iff (left : Derivation .equivalence) (right : Derivation .implication) :
      Derivation .equivalence
  | equivalence (inner : Derivation .implication) : Derivation .equivalence
  | implies (left : Derivation (.list .or)) (right : Derivation .implication) :
      Derivation .implication
  | implication (inner : Derivation (.list .or)) : Derivation .implication
  | several {op : NaryOp} (inner : Derivation (.run op)) : Derivation (.list op)
  | single {op : NaryOp} (inner : Derivation (.term op)) : Derivation (.list op)
  | extend {op : NaryOp} (left : Derivation (.run op)) (right : Derivation (operand op)) :
      Derivation (.run op)
  | pair {op : NaryOp} (left : Derivation (.term op)) (right : Derivation (operand op)) :
      Derivation (.run op)
  | close {op : NaryOp} (closer : BinaryOp) (closes : closer ∈ closers op)
      (left : Derivation (.list op)) (right : Derivation (operand op)) : Derivation (.term op)
  | term {op : NaryOp} (inner : Derivation (operand op)) : Derivation (.term op)
  | not (inner : Derivation .negation) : Derivation .negation
  | negation (inner : Derivation .comparison) : Derivation .negation
  | compare (op : BinaryOp) (compares : op ∈ comparisons) (left right : Derivation (.list .add)) :
      Derivation .comparison
  | comparison (inner : Derivation (.list .add)) : Derivation .comparison
  | minus (inner : Derivation .signed) : Derivation .signed
  | signed (inner : Derivation .primed) : Derivation .signed
  | tick (inner : Derivation .primed) : Derivation .primed
  | primed (inner : Derivation .atom) : Derivation .primed
  | bool (value : Bool) : Derivation .atom
  | literal (value : Int64) : Derivation .atom
  | name (word : String) : Derivation .atom
  | version (word : String) (index : UInt32) : Derivation .atom
  | group (inner : Derivation .formula) : Derivation .atom

namespace Derivation

def yield : {level : Level} → Derivation level → List Token
  | _, .conditional condition consequent alternative =>
      .ifWord :: (condition.yield ++ .thenWord :: (consequent.yield ++
        .elseWord :: alternative.yield))
  | _, .iff left right => left.yield ++ .iff :: right.yield
  | _, .implies left right => left.yield ++ .implies :: right.yield
  | .run op, .extend left right => left.yield ++ op.token :: right.yield
  | .run op, .pair left right => left.yield ++ op.token :: right.yield
  | _, .close closer _ left right => left.yield ++ closer.token :: right.yield
  | _, .not inner => .bang :: inner.yield
  | _, .compare op _ left right => left.yield ++ op.token :: right.yield
  | _, .minus inner => .minus :: inner.yield
  | _, .tick inner => inner.yield ++ [.tick]
  | _, .bool value => [if value then .trueWord else .falseWord]
  | _, .literal value => [.literal value]
  | _, .name word => [.name word]
  | _, .version word index => [.name word, .atSign, .literal (.ofNat index.toNat)]
  | _, .group inner => .openParen :: (inner.yield ++ [.closeParen])
  | _, .formula inner => inner.yield
  | _, .equivalence inner => inner.yield
  | _, .implication inner => inner.yield
  | _, .several inner => inner.yield
  | _, .single inner => inner.yield
  | _, .term inner => inner.yield
  | _, .negation inner => inner.yield
  | _, .comparison inner => inner.yield
  | _, .signed inner => inner.yield
  | _, .primed inner => inner.yield

mutual

/-- The tree that the tokens stand for. A minus in front of a bare literal
without a sign belongs to the literal. -/
def tree : {level : Level} → Derivation level → Tree
  | _, .conditional condition consequent alternative =>
      .ite condition.tree consequent.tree alternative.tree
  | _, .iff left right => .binary .iff left.tree right.tree
  | _, .implies left right => .binary .implies left.tree right.tree
  | .run op, .extend left right => .nary op (left.operands ++ [right.tree])
  | .run op, .pair left right => .nary op [left.tree, right.tree]
  | _, .close closer _ left right => .binary closer left.tree right.tree
  | _, .not inner => .unary .not inner.tree
  | _, .compare op _ left right => .binary op left.tree right.tree
  | _, .minus inner =>
      match inner.tree with
      | .int value => if 0 ≤ value then .int (-value) else .unary .neg (.int value)
      | operand => .unary .neg operand
  | _, .tick inner => .unary .prime inner.tree
  | _, .bool value => .bool value
  | _, .literal value => .int value
  | _, .name word => .current word
  | _, .version word index => .version word index
  | _, .group inner => .group inner.tree
  | _, .formula inner => inner.tree
  | _, .equivalence inner => inner.tree
  | _, .implication inner => inner.tree
  | _, .several inner => inner.tree
  | _, .single inner => inner.tree
  | _, .term inner => inner.tree
  | _, .negation inner => inner.tree
  | _, .comparison inner => inner.tree
  | _, .signed inner => inner.tree
  | _, .primed inner => inner.tree

def operands : {level : Level} → Derivation level → List Tree
  | _, .extend left right => left.operands ++ [right.tree]
  | _, .pair left right => [left.tree, right.tree]
  | _, _ => []

end

end Derivation

/-! ## Operators -/

open Parser

def operator : NaryOp → Token → Option (Option BinaryOp)
  | .and => fun token => (only .conjunction token).map fun _ => none
  | .or => fun token => (only .disjunction token).map fun _ => none
  | .add => sumOperator
  | .mul => productOperator

theorem operator_eq_none_iff (op : NaryOp) (token : Token) :
    operator op token = some none ↔ token = op.token := by
  cases op <;> cases token <;> simp [operator, only, sumOperator, productOperator, NaryOp.token]

theorem operator_eq_some_iff (op : NaryOp) (token : Token) (closer : BinaryOp) :
    operator op token = some (some closer) ↔ closer ∈ closers op ∧ token = closer.token := by
  constructor
  · intro found
    cases op with
    | and | or => simp [operator] at found
    | add | mul =>
        cases token with
        | minus | slash | percent => cases found <;> decide
        | _ => simp [operator, sumOperator, productOperator] at found
  · rintro ⟨member, rfl⟩
    cases op with
    | and | or => simp [closers] at member
    | add | mul =>
        simp only [closers, List.mem_cons, List.not_mem_nil, or_false] at member
        rcases member with rfl | rfl <;> rfl

theorem comparisonOperator_eq_some_iff (token : Token) (op : BinaryOp) :
    comparisonOperator token = some op ↔ op ∈ comparisons ∧ token = op.token := by
  constructor
  · intro found
    cases token with
    | equal | unequal | less | lessEqual | greater | greaterEqual => cases found <;> decide
    | _ => simp [comparisonOperator] at found
  · rintro ⟨member, rfl⟩
    simp only [comparisons, List.mem_cons, List.not_mem_nil, or_false] at member
    rcases member with rfl | rfl | rfl | rfl | rfl | rfl <;> rfl

private theorem continued_map {β γ : Type} (change : β → γ) (operator : Token → Option β)
    (operand : Reader Tree) (steps : Nat) (tokens : List Token) :
    continued (fun token => (operator token).map change) operand steps tokens =
      (continued operator operand steps tokens).map fun result =>
        (result.1.map fun link => (change link.1, link.2), result.2) := by
  induction steps generalizing tokens with
  | zero => rfl
  | succ steps induction =>
      cases tokens with
      | nil => rfl
      | cons token rest =>
          simp only [continued]
          cases operator token with
          | none => rfl
          | some op =>
              simp only [Option.map_some, bind, Except.bind]
              cases operand rest with
              | error fault => rfl
              | ok read =>
                  simp only [induction read.2]
                  cases continued operator operand steps read.2 <;> rfl

theorem joined_eq_runs (op : NaryOp) (separator : Token) (operand : Reader Tree) :
    joined op separator operand =
      runs op (fun token => (only separator token).map fun _ => none) operand := by
  funext tokens
  simp only [joined, runs, chain, bind, Except.bind]
  cases operand tokens with
  | error fault => rfl
  | ok read =>
      simp only [continued_map]
      cases continued (only separator) operand read.2.length read.2 with
      | error fault => rfl
      | ok more => simp [Except.map, buildRuns_same, pure, Except.pure]

/-! ## What is read is derived -/

theorem expect_eq_ok {token : Token} {tokens rest : List Token}
    (result : expect token tokens = .ok rest) : tokens = token :: rest := by
  unfold expect at result
  split at result
  · cases result
  next found more =>
    split at result
    next same => rw [same, Except.ok.inj result]
    next => cases result

theorem toInt_literal (index : UInt32) : (Int64.ofNat index.toNat).toInt = index.toNat :=
  Int64.toInt_ofNat_of_lt (Nat.lt_trans index.toNat_lt (by decide))

def Sound (read : Reader Tree) (level : Level) : Prop :=
  ∀ tokens tree rest, read tokens = .ok (tree, rest) →
    ∃ derivation : Derivation level, tokens = derivation.yield ++ rest ∧ derivation.tree = tree

section Sound

variable {read : Reader Tree}

theorem sound_atom (sound : Sound read .formula) : Sound (atom read) .atom := by
  intro tokens tree rest result
  unfold atom at result
  split at result
  next more =>
    obtain ⟨rfl, rfl⟩ := Prod.mk.inj (Except.ok.inj result)
    exact ⟨.bool true, rfl, rfl⟩
  next more =>
    obtain ⟨rfl, rfl⟩ := Prod.mk.inj (Except.ok.inj result)
    exact ⟨.bool false, rfl, rfl⟩
  next value more =>
    obtain ⟨rfl, rfl⟩ := Prod.mk.inj (Except.ok.inj result)
    exact ⟨.literal value, rfl, rfl⟩
  next word number more =>
    split at result
    next index found =>
      obtain ⟨rfl, rfl⟩ := Prod.mk.inj (Except.ok.inj result)
      obtain rfl : Int64.ofNat index.toNat = number := by
        rw [← Int64.toInt_inj, toInt_literal]
        exact (Version.ofInt?_eq_some_iff ..).mp found
      exact ⟨.version word index, rfl, rfl⟩
    next => cases result
  next => cases result
  next word more _ _ =>
    obtain ⟨rfl, rfl⟩ := Prod.mk.inj (Except.ok.inj result)
    exact ⟨.name word, rfl, rfl⟩
  next more =>
    simp only [Outcome.bind_eq_ok_iff, Outcome.pure_eq_ok_iff, Prod.exists] at result
    obtain ⟨inner, after, readInner, _, closed, same⟩ := result
    obtain ⟨rfl, rfl⟩ := Prod.mk.inj same
    obtain ⟨derivation, rfl, rfl⟩ := sound _ _ _ readInner
    rw [expect_eq_ok closed]
    exact ⟨.group derivation, by simp [Derivation.yield], rfl⟩
  next => cases result

private theorem exists_primed (derivation : Derivation .primed) (tokens : List Token) :
    ∃ whole : Derivation .primed, derivation.yield ++ tokens =
      whole.yield ++ (primes derivation.tree tokens).2 ∧
      whole.tree = (primes derivation.tree tokens).1 := by
  induction tokens generalizing derivation with
  | nil => exact ⟨derivation, rfl, rfl⟩
  | cons token rest induction =>
      cases token with
      | tick =>
          obtain ⟨whole, written, same⟩ := induction (.tick derivation)
          refine ⟨whole, ?_, same⟩
          rw [← List.singleton_append, ← List.append_assoc]
          exact written
      | _ => exact ⟨derivation, rfl, rfl⟩

theorem sound_primed (sound : Sound (atom read) .atom) : Sound (Parser.primed read) .primed := by
  intro tokens tree rest result
  simp only [Parser.primed, Outcome.bind_eq_ok_iff, Outcome.pure_eq_ok_iff, Prod.exists] at result
  obtain ⟨operand, after, readOperand, result⟩ := result
  obtain ⟨derivation, rfl, rfl⟩ := sound _ _ _ readOperand
  obtain ⟨whole, written, same⟩ := exists_primed (.primed derivation) after
  rw [show (Derivation.primed derivation).tree = derivation.tree from rfl, result] at written same
  exact ⟨whole, written, same⟩

theorem sound_signed (sound : Sound (Parser.primed read) .primed) :
    Sound (Parser.signed read) .signed := by
  intro tokens
  induction tokens with
  | nil =>
      intro tree rest result
      obtain ⟨derivation, written, same⟩ := sound _ _ _ result
      exact ⟨.signed derivation, written, same⟩
  | cons token tokens induction =>
      intro tree rest result
      unfold Parser.signed at result
      split at result
      next more same =>
        obtain ⟨rfl, rfl⟩ := List.cons.inj same
        simp only [Outcome.bind_eq_ok_iff, Outcome.pure_eq_ok_iff, Prod.exists, Prod.mk.injEq]
          at result
        obtain ⟨operand, _, readOperand, rfl, rfl⟩ := result
        obtain ⟨derivation, rfl, rfl⟩ := induction _ _ readOperand
        exact ⟨.minus derivation, rfl, rfl⟩
      next =>
        obtain ⟨derivation, written, same⟩ := sound _ _ _ result
        exact ⟨.signed derivation, written, same⟩

theorem sound_comparison (sound : Sound (Parser.sum read) (.list .add)) :
    Sound (Parser.comparison read) .comparison := by
  intro tokens tree rest result
  simp only [Parser.comparison, Outcome.bind_eq_ok_iff, Prod.exists] at result
  obtain ⟨left, after, readLeft, result⟩ := result
  obtain ⟨derivation, rfl, rfl⟩ := sound _ _ _ readLeft
  split at result
  next =>
    obtain ⟨rfl, rfl⟩ := Prod.mk.inj ((Outcome.pure_eq_ok_iff ..).mp result)
    exact ⟨.comparison derivation, rfl, rfl⟩
  next token more =>
    split at result
    next =>
      obtain ⟨rfl, rfl⟩ := Prod.mk.inj ((Outcome.pure_eq_ok_iff ..).mp result)
      exact ⟨.comparison derivation, rfl, rfl⟩
    next op found =>
      simp only [Outcome.bind_eq_ok_iff, Outcome.pure_eq_ok_iff, Prod.exists, Prod.mk.injEq]
        at result
      obtain ⟨right, _, readRight, rfl, rfl⟩ := result
      obtain ⟨derivation', rfl, rfl⟩ := sound _ _ _ readRight
      obtain ⟨compares, rfl⟩ := (comparisonOperator_eq_some_iff ..).mp found
      exact ⟨.compare op compares derivation derivation', by simp [Derivation.yield], rfl⟩

theorem sound_negation (sound : Sound (Parser.comparison read) .comparison) :
    Sound (Parser.negation read) .negation := by
  intro tokens
  induction tokens with
  | nil =>
      intro tree rest result
      obtain ⟨derivation, written, same⟩ := sound _ _ _ result
      exact ⟨.negation derivation, written, same⟩
  | cons token tokens induction =>
      intro tree rest result
      unfold Parser.negation at result
      split at result
      next more same =>
        obtain ⟨rfl, rfl⟩ := List.cons.inj same
        simp only [Outcome.bind_eq_ok_iff, Outcome.pure_eq_ok_iff, Prod.exists, Prod.mk.injEq]
          at result
        obtain ⟨operand, _, readOperand, rfl, rfl⟩ := result
        obtain ⟨derivation, rfl, rfl⟩ := induction _ _ readOperand
        exact ⟨.not derivation, rfl, rfl⟩
      next =>
        obtain ⟨derivation, written, same⟩ := sound _ _ _ result
        exact ⟨.negation derivation, written, same⟩

end Sound

/-! ## Chains of derivations -/

structure Link (β : Type) (level : Level) where
  separator : Token
  op : β
  operand : Derivation level

namespace Link

variable {β : Type} {level : Level}

def written (links : List (Link β level)) : List Token :=
  links.flatMap fun link => link.separator :: link.operand.yield

def trees (links : List (Link β level)) : List (β × Tree) :=
  links.map fun link => (link.op, link.operand.tree)

end Link

section Chains

variable {β : Type} {separators : Token → Option β} {read : Reader Tree} {level : Level}

theorem sound_continued (sound : Sound read level) {steps : Nat} {tokens rest : List Token}
    {more : List (β × Tree)} (result : continued separators read steps tokens = .ok (more, rest)) :
    ∃ links : List (Link β level), tokens = Link.written links ++ rest ∧ more = Link.trees links ∧
      ∀ link ∈ links, separators link.separator = some link.op := by
  induction steps generalizing tokens more with
  | zero =>
      obtain ⟨rfl, rfl⟩ := Prod.mk.inj (Except.ok.inj result)
      exact ⟨[], rfl, rfl, by simp⟩
  | succ steps induction =>
      cases tokens with
      | nil =>
          obtain ⟨rfl, rfl⟩ := Prod.mk.inj (Except.ok.inj result)
          exact ⟨[], rfl, rfl, by simp⟩
      | cons token tokens =>
          simp only [continued] at result
          split at result
          next =>
            obtain ⟨rfl, rfl⟩ := Prod.mk.inj (Except.ok.inj result)
            exact ⟨[], rfl, rfl, by simp⟩
          next op found =>
            simp only [Outcome.bind_eq_ok_iff, Outcome.pure_eq_ok_iff, Prod.exists,
              Prod.mk.injEq] at result
            obtain ⟨next, after, readNext, others, _, readMore, rfl, rfl⟩ := result
            obtain ⟨derivation, rfl, rfl⟩ := sound _ _ _ readNext
            obtain ⟨links, rfl, rfl, each⟩ := induction readMore
            exact ⟨⟨token, op, derivation⟩ :: links, by simp [Link.written],
              by simp [Link.trees], List.forall_mem_cons.mpr ⟨found, each⟩⟩

theorem sound_chain (sound : Sound read level) {build : Tree → List (β × Tree) → Tree}
    {tokens rest : List Token} {tree : Tree}
    (result : chain separators read build tokens = .ok (tree, rest)) :
    ∃ (first : Derivation level) (links : List (Link β level)),
      tokens = first.yield ++ Link.written links ++ rest ∧
      tree = build first.tree (Link.trees links) ∧
      ∀ link ∈ links, separators link.separator = some link.op := by
  simp only [chain, Outcome.bind_eq_ok_iff, Outcome.pure_eq_ok_iff, Prod.exists,
    Prod.mk.injEq] at result
  obtain ⟨first, after, readFirst, more, _, readMore, rfl, rfl⟩ := result
  obtain ⟨derivation, rfl, rfl⟩ := sound _ _ _ readFirst
  obtain ⟨links, rfl, rfl, each⟩ := sound_continued sound readMore
  exact ⟨derivation, links, (List.append_assoc ..).symm, rfl, each⟩

end Chains

/-! ## Lists -/

theorem Derivation.two_le_length_operands {op : NaryOp} (run : Derivation (.run op)) :
    2 ≤ run.operands.length := by
  cases run with
  | pair left right => exact Nat.le_refl 2
  | extend left right =>
      have two := two_le_length_operands left
      simp only [operands, List.length_append, List.length_singleton]
      omega

theorem Derivation.closeRun_operands {op : NaryOp} (run : Derivation (.run op)) :
    closeRun op run.operands = run.tree := by
  have several : closeRun op run.operands = .nary op run.operands := by
    have two := run.two_le_length_operands
    unfold closeRun
    split
    next single => simp [single] at two
    next => rfl
  rw [several]
  cases run <;> rfl

def Collects (op : NaryOp) (tokens : List Token) (run : List Tree) : Prop :=
  (∃ term : Derivation (.term op), term.yield = tokens ∧ [term.tree] = run) ∨
    ∃ several : Derivation (.run op), several.yield = tokens ∧ several.operands = run

section Lists

variable {op : NaryOp} {tokens : List Token} {run : List Tree}

theorem Collects.exists_list (collects : Collects op tokens run) :
    ∃ list : Derivation (.list op), list.yield = tokens ∧ list.tree = closeRun op run := by
  obtain ⟨term, rfl, rfl⟩ | ⟨several, rfl, rfl⟩ := collects
  · exact ⟨.single term, rfl, rfl⟩
  · exact ⟨.several several, rfl, several.closeRun_operands.symm⟩

theorem Collects.extend (collects : Collects op tokens run) (next : Derivation (operand op)) :
    Collects op (tokens ++ op.token :: next.yield) (run ++ [next.tree]) := by
  obtain ⟨term, rfl, rfl⟩ | ⟨several, rfl, rfl⟩ := collects
  · exact .inr ⟨.pair term next, rfl, rfl⟩
  · exact .inr ⟨.extend several next, rfl, rfl⟩

theorem Collects.close (collects : Collects op tokens run) {closer : BinaryOp}
    (closes : closer ∈ closers op) (next : Derivation (operand op)) :
    Collects op (tokens ++ closer.token :: next.yield)
      [.binary closer (closeRun op run) next.tree] := by
  obtain ⟨list, rfl, closed⟩ := collects.exists_list
  exact .inl ⟨.close closer closes list next, rfl, by rw [← closed]; rfl⟩

theorem Collects.exists_list_of_links {links : List (Link (Option BinaryOp) (operand op))}
    (collects : Collects op tokens run)
    (each : ∀ link ∈ links, operator op link.separator = some link.op) :
    ∃ list : Derivation (.list op), list.yield = tokens ++ Link.written links ∧
      list.tree = buildRuns op run (Link.trees links) := by
  induction links generalizing tokens run with
  | nil =>
      rw [Link.written, List.flatMap_nil, List.append_nil]
      exact collects.exists_list
  | cons link links induction =>
      obtain ⟨separator, found, next⟩ := link
      obtain ⟨first, later⟩ := List.forall_mem_cons.mp each
      rw [Link.written, List.flatMap_cons, ← List.append_assoc]
      cases found with
      | none =>
          obtain rfl : separator = op.token := (operator_eq_none_iff op separator).mp first
          exact induction (collects.extend next) later
      | some closer =>
          obtain ⟨closes, rfl⟩ := (operator_eq_some_iff op separator closer).mp first
          exact induction (collects.close closes next) later

end Lists

theorem sound_runs {read : Reader Tree} {op : NaryOp} (sound : Sound read (operand op)) :
    Sound (runs op (operator op) read) (.list op) := by
  intro tokens tree rest result
  obtain ⟨first, links, rfl, rfl, each⟩ := sound_chain sound result
  have collects : Collects op first.yield [first.tree] := .inl ⟨.term first, rfl, rfl⟩
  obtain ⟨list, written, same⟩ := collects.exists_list_of_links each
  exact ⟨list, by rw [written], same⟩

/-! ## Implications and equivalences -/

private theorem eq_of_only {separator token : Token} {found : Unit}
    (accepted : only separator token = some found) : token = separator := by
  unfold only at accepted
  split at accepted
  next same => exact same
  next => cases accepted

private theorem exists_implication {links : List (Link Unit (.list .or))}
    (each : ∀ link ∈ links, only .implies link.separator = some link.op)
    (first : Derivation (.list .or)) :
    ∃ derivation : Derivation .implication, derivation.yield = first.yield ++ Link.written links ∧
      derivation.tree = buildImplication first.tree (Link.trees links) := by
  induction links generalizing first with
  | nil => exact ⟨.implication first, by simp [Derivation.yield, Link.written], rfl⟩
  | cons link links induction =>
      obtain ⟨found, later⟩ := List.forall_mem_cons.mp each
      obtain ⟨derivation, written, same⟩ := induction later link.operand
      refine ⟨.implies first derivation, ?_, ?_⟩
      · simp [Derivation.yield, Link.written, eq_of_only found, written]
      · simp [Derivation.tree, Link.trees, buildImplication, same]

theorem sound_implication {read : Reader Tree} (sound : Sound (disjunction read) (.list .or)) :
    Sound (Parser.implication read) .implication := by
  intro tokens tree rest result
  obtain ⟨first, links, rfl, rfl, each⟩ := sound_chain sound result
  obtain ⟨derivation, written, same⟩ := exists_implication each first
  exact ⟨derivation, by rw [written], same⟩

private theorem exists_equivalence {links : List (Link Unit .implication)}
    (each : ∀ link ∈ links, only .iff link.separator = some link.op)
    (first : Derivation .equivalence) :
    ∃ derivation : Derivation .equivalence, derivation.yield = first.yield ++ Link.written links ∧
      derivation.tree = buildEquivalence first.tree (Link.trees links) := by
  induction links generalizing first with
  | nil => exact ⟨first, by simp [Link.written], rfl⟩
  | cons link links induction =>
      obtain ⟨found, later⟩ := List.forall_mem_cons.mp each
      obtain ⟨derivation, written, same⟩ := induction later (.iff first link.operand)
      refine ⟨derivation, ?_, same⟩
      simp [written, Derivation.yield, Link.written, eq_of_only found]

theorem sound_equivalence {read : Reader Tree}
    (sound : Sound (Parser.implication read) .implication) :
    Sound (Parser.equivalence read) .equivalence := by
  intro tokens tree rest result
  obtain ⟨first, links, rfl, rfl, each⟩ := sound_chain sound result
  obtain ⟨derivation, written, same⟩ := exists_equivalence each (.equivalence first)
  exact ⟨derivation, by rw [written]; rfl, same⟩

theorem sound_levels {read : Reader Tree} (sound : Sound read .formula) :
    Sound (Parser.equivalence read) .equivalence := by
  have signed := sound_signed (sound_primed (sound_atom sound))
  have product : Sound (Parser.product read) (.list .mul) := sound_runs signed
  have sum : Sound (Parser.sum read) (.list .add) := sound_runs product
  have negation := sound_negation (sound_comparison sum)
  have conjunction : Sound (Parser.conjunction read) (.list .and) := by
    rw [Parser.conjunction, joined_eq_runs]
    exact sound_runs negation
  have disjunction : Sound (Parser.disjunction read) (.list .or) := by
    rw [Parser.disjunction, joined_eq_runs]
    exact sound_runs conjunction
  exact sound_equivalence (sound_implication disjunction)

theorem sound_formula (depth : Nat) : Sound (Parser.formula depth) .formula := by
  induction depth with
  | zero =>
      intro tokens tree rest result
      cases result
  | succ depth induction =>
      intro tokens tree rest result
      simp only [Parser.formula] at result
      split at result
      next more =>
        simp only [Outcome.bind_eq_ok_iff, Outcome.pure_eq_ok_iff, Prod.exists, Prod.mk.injEq]
          at result
        obtain ⟨condition, _, readCondition, _, expectThen, consequent, _, readConsequent, _,
          expectElse, alternative, _, readAlternative, rfl, rfl⟩ := result
        obtain ⟨first, rfl, rfl⟩ := induction _ _ _ readCondition
        rw [expect_eq_ok expectThen]
        obtain ⟨second, rfl, rfl⟩ := induction _ _ _ readConsequent
        rw [expect_eq_ok expectElse]
        obtain ⟨third, rfl, rfl⟩ := induction _ _ _ readAlternative
        exact ⟨.conditional first second third, by simp [Derivation.yield], rfl⟩
      next =>
        obtain ⟨derivation, written, same⟩ := sound_levels induction _ _ _ result
        exact ⟨.formula derivation, written, same⟩

end Grammar

end SymbolicSafety
