import SymbolicSafety.Proofs.RoundTrip
import SymbolicSafety.Proofs.Unambiguity

namespace SymbolicSafety

/-! What is read can be printed and read again. The lexer gives identifiers and
literals without a sign, the grammar gives nodes with at least two operands and
never the least integer, and looking up a name gives the variable that has it. -/

/-! ## Tokens -/

namespace Lexer

variable {text rest : List Char} {character : Char} {found : Token}

theorem lexical_ofWord {word : String}
    (spelled : ∃ first part, word.toList = first :: part ∧ isNameStart first = true ∧
      ∀ character ∈ part, isNamePart character = true) : (Token.ofWord word).Lexical := by
  by_cases free : Token.ofWord word = .name word
  · rw [free]
    exact ⟨spelled, free⟩
  · unfold Token.ofWord at free ⊢
    split at free
    case h_6 => exact absurd rfl free
    all_goals trivial

theorem lexical_of_operator (read : operator character text = .ok (found, rest)) :
    found.Lexical := by
  unfold operator at read
  split at read
  all_goals cases read <;> trivial

theorem lexical_of_token (read : token character text = .ok (found, rest)) : found.Lexical := by
  unfold token at read
  split at read
  next start =>
    obtain ⟨rfl, -⟩ := Prod.mk.inj (Except.ok.inj read)
    exact lexical_ofWord
      ⟨character, _, String.toList_ofList, start, List.all_eq_true.mp List.all_takeWhile⟩
  next =>
    split at read
    next =>
      obtain ⟨rfl, -⟩ := Prod.mk.inj (Except.ok.inj read)
      exact Int64.le_refl 0
    next =>
      split at read
      next =>
        split at read
        next value fits =>
          obtain ⟨rfl, -⟩ := Prod.mk.inj (Except.ok.inj read)
          have same := (Word.ofInt?_eq_some_iff ..).mp fits
          exact Int64.le_iff_toInt_le.mpr (same ▸ Int.natCast_nonneg _)
        next => cases read
      next => exact lexical_of_operator read

theorem lexical_of_tokens {found : List Token} (read : tokens text = .ok found) :
    ∀ token ∈ found, token.Lexical := by
  fun_induction tokens text generalizing found with
  | case1 => simp [← Except.ok.inj read]
  | case2 => cases read
  | case3 text character rest layout first remaining readFirst shorter induction =>
      obtain ⟨more, readMore, same⟩ := (Outcome.bind_eq_ok_iff ..).mp read
      rw [← (Outcome.pure_eq_ok_iff ..).mp same]
      exact List.forall_mem_cons.mpr ⟨lexical_of_token readFirst, induction readMore⟩

end Lexer

/-! ## Trees -/

namespace Tree

/-- A tree in which nodes with a list of operands have at least two of them,
literals are not the least integer, and names are identifiers. -/
inductive Canonical : Tree → Prop where
  | bool (value : Bool) : Canonical (.bool value)
  | int {value : Int64} : value ≠ Int64.minValue → Canonical (.int value)
  | current {name : String} : Lexer.IsName name → Canonical (.current name)
  | version {name : String} (index : UInt32) : Lexer.IsName name → Canonical (.version name index)
  | unary (op : UnaryOp) {operand : Tree} : Canonical operand → Canonical (.unary op operand)
  | binary (op : BinaryOp) {left right : Tree} :
      Canonical left → Canonical right → Canonical (.binary op left right)
  | nary (op : NaryOp) {operands : List Tree} :
      2 ≤ operands.length → (∀ operand ∈ operands, Canonical operand) →
      Canonical (.nary op operands)
  | ite {condition consequent alternative : Tree} :
      Canonical condition → Canonical consequent → Canonical alternative →
      Canonical (.ite condition consequent alternative)
  | group {inner : Tree} : Canonical inner → Canonical (.group inner)

theorem Canonical.negated {operand : Tree} (canonical : operand.Canonical) :
    (Parser.negated operand).Canonical := by
  unfold Parser.negated
  split
  next value =>
    split
    next nonnegative =>
      refine .int fun least => ?_
      have opposite : value = Int64.minValue := by
        rw [← @Int64.neg_neg value, least]
        rfl
      rw [opposite] at nonnegative
      exact absurd nonnegative (by decide)
    next => exact .unary .neg canonical
  next => exact .unary .neg canonical

end Tree

namespace Grammar

theorem Derivation.tree_run {op : NaryOp} (run : Derivation (.run op)) :
    run.tree = .nary op run.operands := by
  cases run <;> rfl

theorem Derivation.canonical {level : Level} (derivation : Derivation level)
    (lexical : ∀ token ∈ derivation.yield, token.Lexical) : derivation.tree.Canonical := by
  induction derivation with
  | conditional condition consequent alternative first second third =>
      simp only [yield, List.forall_mem_cons, List.forall_mem_append] at lexical
      obtain ⟨-, inCondition, -, inConsequent, -, inAlternative⟩ := lexical
      exact .ite (first inCondition) (second inConsequent) (third inAlternative)
  | iff left right first second | implies left right first second
  | close closer closes left right first second | compare op compares left right first second =>
      simp only [yield, List.forall_mem_cons, List.forall_mem_append] at lexical
      exact .binary _ (first lexical.1) (second lexical.2.2)
  | @extend op left right first second =>
      simp only [yield, List.forall_mem_cons, List.forall_mem_append] at lexical
      -- The run so far is one node already, which gets one more operand.
      have canonical := first lexical.1
      rw [tree_run] at canonical
      cases canonical with
      | nary _ several each =>
          refine .nary op (by simp; omega) (List.forall_mem_append.mpr ⟨each, ?_⟩)
          exact List.forall_mem_singleton.mpr (second lexical.2.2)
  | @pair op left right first second =>
      simp only [yield, List.forall_mem_cons, List.forall_mem_append] at lexical
      refine .nary op (Nat.le_refl 2) (List.forall_mem_cons.mpr ⟨first lexical.1, ?_⟩)
      exact List.forall_mem_singleton.mpr (second lexical.2.2)
  | not inner induction => exact .unary .not (induction (List.forall_mem_cons.mp lexical).2)
  | minus inner induction =>
      rw [tree_minus]
      exact (induction (List.forall_mem_cons.mp lexical).2).negated
  | tick inner induction => exact .unary .prime (induction (List.forall_mem_append.mp lexical).1)
  | bool value => exact .bool value
  | literal value =>
      refine .int ?_
      rintro rfl
      have nonnegative : 0 ≤ Int64.minValue := lexical (.literal _) List.mem_cons_self
      exact absurd nonnegative (by decide)
  | name word => exact .current (lexical (.name word) List.mem_cons_self)
  | version word index => exact .version index (lexical (.name word) List.mem_cons_self)
  | group inner induction =>
      simp only [yield, List.forall_mem_cons, List.forall_mem_append] at lexical
      exact .group (induction lexical.2.1)
  | formula inner induction | equivalence inner induction | implication inner induction
  | several inner induction | single inner induction | term inner induction
  | negation inner induction | comparison inner induction | signed inner induction
  | primed inner induction => exact induction lexical

theorem canonical_of_parse {tokens : List Token} {tree : Tree}
    (lexical : ∀ token ∈ tokens, token.Lexical) (parsed : Parser.parse tokens = .ok tree) :
    tree.Canonical := by
  simp only [Parser.parse, Outcome.bind_eq_ok_iff, Prod.exists] at parsed
  obtain ⟨found, rest, read, parsed⟩ := parsed
  obtain ⟨derivation, rfl, rfl⟩ := sound_formula _ _ _ _ read
  split at parsed
  next =>
    obtain rfl := (Outcome.pure_eq_ok_iff ..).mp parsed
    exact derivation.canonical (List.forall_mem_append.mp lexical).1
  next => cases parsed

end Grammar

/-! ## Formulas -/

namespace Scope

/-- Each variable stands under its own name. -/
def Named (scope : Scope) : Prop := ∀ name var, scope.get? name = some var → var.name = name

theorem Named.declare {scope : Scope} (named : scope.Named) (var : Variable) :
    (scope.declare var).Named := by
  intro name other found
  rw [Scope.declare, SortedMap.get?_insert] at found
  split at found
  next same => rw [← Option.some.inj found, same]
  next => exact named name other found

theorem named_ofVariables (vars : List Variable) : (ofVariables vars).Named := by
  have built (scope : Scope) (named : scope.Named) : (vars.foldl declare scope).Named := by
    induction vars generalizing scope with
    | nil => exact named
    | cons head rest induction => exact induction _ (named.declare head)
  exact built SortedMap.empty (by simp [Named])

end Scope

namespace Formula

variable {scope : Scope} {formula : Formula}

/-- What may stand at a node: a list of at least two operands, a literal other
than the least integer, and a variable that the scope has under its name, which is
an identifier. -/
def Allowed (scope : Scope) : Formula → Prop
  | .int value => value ≠ Int64.minValue
  | .symbol name => Lexer.IsName name.var.name ∧ scope.get? name.var.name = some name.var
  | .nary _ operands => 2 ≤ operands.length
  | .bool _ | .unary .. | .binary .. | .ite .. => True

def Faithful (scope : Scope) (formula : Formula) : Prop :=
  ∀ part, Occurs part formula → part.Allowed scope

theorem faithful_of_children (allowed : formula.Allowed scope)
    (each : ∀ child ∈ formula.children, child.Faithful scope) : formula.Faithful scope := by
  intro part occurs
  rcases (occurs_iff _ _).mp occurs with rfl | ⟨child, member, below⟩
  · exact allowed
  · exact each child member part below

namespace Faithful

variable (faithful : formula.Faithful scope)
include faithful

theorem branching : formula.Branching :=
  fun op operands occurs => faithful (.nary op operands) occurs

theorem not_hasLeast : ¬ formula.HasLeast :=
  fun occurs => faithful (.int Int64.minValue) occurs rfl

theorem named : formula.Named :=
  fun symbol mentions => (faithful (.symbol symbol) mentions).1

theorem visible : formula.Visible scope :=
  fun symbol mentions => (faithful (.symbol symbol) mentions).2

theorem read_document (width : Nat) :
    Formula.read scope ((formula.document 0).render width) = .ok formula := by
  have inside := faithful.not_hasLeast
  have readable := readable faithful.branching inside
  obtain ⟨first, more, spelled, -⟩ := readable.leads
  have lexed := (tokens_render (legible faithful.branching faithful.named) width).2 inside
  have tokenized : Lexer.tokenize ((formula.document 0).render width) = .ok formula.spelling := by
    simp [Lexer.tokenize, lexed, spelled]
  simp [Formula.read, tokenized, parse_spelling readable, resolve_tree faithful.visible]

end Faithful

end Formula

namespace Tree

variable {scope : Scope}

theorem resolveAll_eq_ok {operands : List Tree} {formulas : List Formula}
    (resolved : resolveAll scope operands = .ok formulas) :
    formulas.length = operands.length ∧
      ∀ formula ∈ formulas, ∃ operand ∈ operands, operand.resolve scope = .ok formula := by
  induction operands generalizing formulas with
  | nil => simp [← Except.ok.inj resolved]
  | cons head rest induction =>
      simp only [resolveAll, Outcome.bind_eq_ok_iff, Outcome.pure_eq_ok_iff] at resolved
      obtain ⟨first, resolvedHead, others, resolvedRest, rfl⟩ := resolved
      obtain ⟨length, each⟩ := induction resolvedRest
      refine ⟨congrArg Nat.succ length, List.forall_mem_cons.mpr ⟨?_, fun formula member => ?_⟩⟩
      · exact ⟨head, List.mem_cons_self, resolvedHead⟩
      · obtain ⟨operand, inRest, same⟩ := each formula member
        exact ⟨operand, List.mem_cons_of_mem _ inRest, same⟩

theorem find_eq_ok {name : String} {var : Variable} (found : scope.find name = .ok var) :
    scope.get? name = some var := by
  unfold Scope.find at found
  split at found
  next var' held => rw [held, Except.ok.inj found]
  next => cases found

theorem Canonical.faithful {tree : Tree} (canonical : tree.Canonical) (named : scope.Named)
    {formula : Formula} (resolved : tree.resolve scope = .ok formula) :
    formula.Faithful scope := by
  have leaf (symbol : Symbol) {name : String} (isName : Lexer.IsName name)
      (found : scope.find name = .ok symbol.var) : (Formula.symbol symbol).Faithful scope := by
    have held := find_eq_ok found
    have same := named name symbol.var held
    refine Formula.faithful_of_children ⟨same.symm ▸ isName, same.symm ▸ held⟩ ?_
    simp [Formula.children]
  induction canonical generalizing formula with
  | bool value =>
      obtain rfl := Except.ok.inj resolved
      exact Formula.faithful_of_children trivial (by simp [Formula.children])
  | int bounded =>
      obtain rfl := Except.ok.inj resolved
      exact Formula.faithful_of_children bounded (by simp [Formula.children])
  | current isName =>
      simp only [resolve, Outcome.bind_eq_ok_iff, Outcome.pure_eq_ok_iff] at resolved
      obtain ⟨var, found, rfl⟩ := resolved
      exact leaf (.current var) isName found
  | version index isName =>
      simp only [resolve, Outcome.bind_eq_ok_iff, Outcome.pure_eq_ok_iff] at resolved
      obtain ⟨var, found, rfl⟩ := resolved
      exact leaf (.version var index) isName found
  | unary op _ induction =>
      simp only [resolve, Outcome.bind_eq_ok_iff, Outcome.pure_eq_ok_iff] at resolved
      obtain ⟨operand, resolvedOperand, rfl⟩ := resolved
      exact Formula.faithful_of_children trivial
        (List.forall_mem_singleton.mpr (induction resolvedOperand))
  | binary op _ _ first second =>
      simp only [resolve, Outcome.bind_eq_ok_iff, Outcome.pure_eq_ok_iff] at resolved
      obtain ⟨left, resolvedLeft, right, resolvedRight, rfl⟩ := resolved
      exact Formula.faithful_of_children trivial (List.forall_mem_cons.mpr
        ⟨first resolvedLeft, List.forall_mem_singleton.mpr (second resolvedRight)⟩)
  | nary op several _ induction =>
      simp only [resolve, Outcome.bind_eq_ok_iff, Outcome.pure_eq_ok_iff] at resolved
      obtain ⟨formulas, resolvedAll, rfl⟩ := resolved
      obtain ⟨length, each⟩ := resolveAll_eq_ok resolvedAll
      have enough : 2 ≤ formulas.length := length ▸ several
      refine Formula.faithful_of_children enough fun formula member => ?_
      obtain ⟨operand, inOperands, resolvedOperand⟩ := each formula member
      exact induction operand inOperands resolvedOperand
  | ite _ _ _ first second third =>
      simp only [resolve, Outcome.bind_eq_ok_iff, Outcome.pure_eq_ok_iff] at resolved
      obtain ⟨condition, resolvedCondition, consequent, resolvedConsequent, alternative,
        resolvedAlternative, rfl⟩ := resolved
      exact Formula.faithful_of_children trivial (List.forall_mem_cons.mpr
        ⟨first resolvedCondition, List.forall_mem_cons.mpr
          ⟨second resolvedConsequent, List.forall_mem_singleton.mpr (third resolvedAlternative)⟩⟩)
  | group _ induction => exact induction resolved

end Tree

namespace Formula

/-- Whatever text is read, in the formula every list of operands has at least two
of them, no literal is the least integer, and every variable is the one in scope
under its name. Printed within any width, the formula is read as the same formula,
unless it is nested too deeply to be printed. -/
theorem reprintable_of_read {vars : List Variable} {text : String} {formula : Formula}
    (read : Formula.read (.ofVariables vars) text = .ok formula) :
    formula.Branching ∧ ¬ formula.HasLeast ∧ formula.Visible (.ofVariables vars) ∧
      (formula.nesting ≤ maxNesting → ∀ width, ∃ printed, formula.render? width = some printed ∧
        Formula.read (.ofVariables vars) printed = .ok formula) := by
  simp only [Formula.read, Lexer.tokenize, Outcome.bind_eq_ok_iff] at read
  obtain ⟨tokens, ⟨found, lexed, kept⟩, tree, parsed, resolved⟩ := read
  split at kept
  next => cases kept
  next =>
    obtain rfl := (Outcome.pure_eq_ok_iff ..).mp kept
    have canonical := Grammar.canonical_of_parse (Lexer.lexical_of_tokens lexed) parsed
    have faithful := canonical.faithful (Scope.named_ofVariables vars) resolved
    refine ⟨faithful.branching, faithful.not_hasLeast, faithful.visible, fun nests width => ?_⟩
    exact ⟨_, if_pos (decide_eq_true nests), faithful.read_document width⟩

namespace Redundant

def hidden : Variable := ⟨0, "x", .bool⟩

def x : Variable := ⟨1, "x", .range 0 9⟩

def text : String := "-x - --3 * x@2 <= ((1 + x) + 2) ; total"

def formula : Formula :=
  .binary .leq
    (.binary .sub (.unary .neg (current x))
      (.nary .mul [.unary .neg (.int (-3)), version x 2]))
    (.nary .add [.nary .add [.int 1, current x], .int 2])

theorem reprintable_of_read_text :
    Formula.read (.ofVariables [hidden, x]) text = .ok formula ∧
      formula.Branching ∧ ¬ formula.HasLeast ∧ formula.Visible (.ofVariables [hidden, x]) ∧
      ∀ width, ∃ printed, formula.render? width = some printed ∧
        Formula.read (.ofVariables [hidden, x]) printed = .ok formula := by
  have read : Formula.read (.ofVariables [hidden, x]) text = .ok formula := by
    have found : (Formula.read (.ofVariables [hidden, x]) text).toOption = some formula := by
      decide +kernel
    cases outcome : Formula.read (.ofVariables [hidden, x]) text with
    | error error =>
        rw [outcome] at found
        cases found
    | ok other =>
        rw [outcome] at found
        rw [Option.some.inj found]
  obtain ⟨branching, inside, visible, reads⟩ := reprintable_of_read read
  exact ⟨read, branching, inside, visible, reads (by decide)⟩

end Redundant

end Formula

end SymbolicSafety
