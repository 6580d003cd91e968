import SymbolicSafety.Proofs.Precedence

namespace SymbolicSafety

/-! Printing and reading again. Whatever the width, the text of a formula is
read back as the very same tree, unless the least integer occurs in it: its
digits alone are no literal, and reading stops there. -/

namespace Formula

/-- Every variable is the one that its name stands for. -/
def Visible (formula : Formula) (scope : Scope) : Prop :=
  ∀ symbol, formula.Mentions symbol → scope.get? symbol.var.name = some symbol.var

theorem Visible.child {formula child : Formula} {scope : Scope} (visible : formula.Visible scope)
    (member : child ∈ formula.children) : child.Visible scope :=
  fun symbol mentions => visible symbol (mentions.of_child member)

theorem resolve_grouped (parent : Kind) (operand : Formula) (inner : Tree) (scope : Scope) :
    (grouped parent operand inner).resolve scope = inner.resolve scope := by
  unfold grouped
  split
  · rw [Tree.resolve]
  · rfl

theorem resolveAll_trees {scope : Scope} (parent : Kind) {operands : List Formula}
    (each : ∀ operand ∈ operands, operand.tree.resolve scope = .ok operand) :
    Tree.resolveAll scope (operands.map fun operand => grouped parent operand operand.tree) =
      .ok operands := by
  induction operands with
  | nil => rfl
  | cons head rest induction =>
      obtain ⟨first, others⟩ := List.forall_mem_cons.mp each
      simp [Tree.resolveAll, resolve_grouped, first, induction others]

theorem resolve_tree {formula : Formula} {scope : Scope} (visible : formula.Visible scope) :
    formula.tree.resolve scope = .ok formula := by
  induction formula with
  | bool value => rfl
  | int value => rfl
  | symbol symbol =>
      have found := visible symbol .here
      cases symbol <;>
        simp_all [tree, Tree.resolve, Scope.find, Symbol.var, current, version]
  | unary op operand induction =>
      have inner := induction (visible.child (by simp [children]))
      simp [tree, Tree.resolve, resolve_grouped, inner]
  | binary op left right inductionLeft inductionRight =>
      have first := inductionLeft (visible.child (by simp [children]))
      have second := inductionRight (visible.child (by simp [children]))
      simp [tree, Tree.resolve, resolve_grouped, first, second]
  | nary op operands induction =>
      have each : ∀ operand ∈ operands, operand.tree.resolve scope = .ok operand :=
        fun operand member => induction operand member (visible.child member)
      have all := resolveAll_trees op.kind each
      simp [tree, Tree.resolve, all]
  | ite condition consequent alternative first second third =>
      have readCondition := first (visible.child (by simp [children]))
      have readConsequent := second (visible.child (by simp [children]))
      have readAlternative := third (visible.child (by simp [children]))
      simp [tree, Tree.resolve, resolve_grouped, readCondition, readConsequent, readAlternative]

theorem tokens_render {formula : Formula} (legible : formula.Legible) (width : Nat) :
    (formula.HasLeast → ∃ found,
      Lexer.tokens ((formula.document 0).render width).toList = .error (.lexing found)) ∧
    (¬ formula.HasLeast →
      Lexer.tokens ((formula.document 0).render width).toList = .ok formula.spelling) := by
  have shown := Document.shows_render width (formula.document 0)
  have nothing : Lexer.tokens [] = .ok [] := Lexer.tokens_of_nothing rfl
  obtain ⟨fails, succeeds⟩ := (legible 0).2 _ shown [] nofun
  rw [List.append_nil] at fails succeeds
  refine ⟨fails, fun inside => ?_⟩
  rw [succeeds inside, nothing]
  simp [Functor.map, Except.map]

/-- A printed formula is read back unless the least integer occurs in it. -/
theorem read_render {formula : Formula} {scope : Scope} (branching : formula.Branching)
    (named : formula.Named) (visible : formula.Visible scope)
    (nests : formula.nesting ≤ maxNesting) (width : Nat) :
    ∃ text, formula.render? width = some text ∧
      (¬ formula.HasLeast → Formula.read scope text = .ok formula) ∧
      (formula.HasLeast → ∃ found, Formula.read scope text = .error (.lexing found)) := by
  have printed : formula.render? width = some ((formula.document 0).render width) :=
    if_pos (decide_eq_true nests)
  obtain ⟨fails, succeeds⟩ := tokens_render (legible branching named) width
  refine ⟨_, printed, fun inside => ?_, fun least => ?_⟩
  · have readable := readable branching inside
    obtain ⟨first, more, spelled, -⟩ := readable.leads
    have tokenized : Lexer.tokenize ((formula.document 0).render width) =
        .ok formula.spelling := by
      simp [Lexer.tokenize, succeeds inside, spelled]
    simp [Formula.read, tokenized, parse_spelling readable, resolve_tree visible]
  · obtain ⟨found, failed⟩ := fails least
    refine ⟨found, ?_⟩
    simp only [Formula.read, Lexer.tokenize, failed, bind, Except.bind]

/-! ## An instance -/

theorem branching_nary (op : NaryOp) (operands : List Formula) :
    (Formula.nary op operands).Branching ↔
      2 ≤ operands.length ∧ ∀ operand ∈ operands, operand.Branching := by
  constructor
  · intro branching
    exact ⟨branching op operands .here, fun operand member => branching.child member⟩
  · rintro ⟨several, each⟩ op' operands' occurs
    rcases (occurs_iff _ _).mp occurs with equal | ⟨child, member, below⟩
    · cases equal
      exact several
    · exact each child member op' operands' below

theorem branching_iff_children {formula : Formula}
    (other : ∀ op operands, formula ≠ .nary op operands) :
    formula.Branching ↔ ∀ child ∈ formula.children, child.Branching := by
  constructor
  · intro branching child member
    exact branching.child member
  · intro each op operands occurs
    rcases (occurs_iff _ _).mp occurs with equal | ⟨child, member, below⟩
    · exact absurd equal.symm (other op operands)
    · exact each child member op operands below

namespace Mixed

def x : Variable := ⟨0, "x", .range 0 9⟩

def p : Variable := ⟨1, "p", .bool⟩

def formula : Formula :=
  .binary .implies
    (.binary .leq (.unary .prime (.binary .sub (current x) (.int 1)))
      (.nary .add [.unary .neg (.int 5), .nary .mul [.int (-2), version x 3]]))
    (.unary .not (.unary .not (current p)))

private theorem mentions {symbol : Symbol} (mentions : formula.Mentions symbol) :
    symbol.var = x ∨ symbol.var = p := by
  simp only [formula, current, version, mentions_binary, mentions_unary, mentions_nary,
    mentions_symbol, mentions_int, List.mem_cons, List.not_mem_nil, or_false, false_or,
    exists_eq_or_imp, exists_eq_left] at mentions
  rcases mentions with (rfl | rfl) | rfl
  · exact .inl rfl
  · exact .inl rfl
  · exact .inr rfl

private theorem isName_x : Lexer.IsName "x" :=
  ⟨⟨'x', [], rfl, by decide, nofun⟩, rfl⟩

private theorem isName_p : Lexer.IsName "p" :=
  ⟨⟨'p', [], rfl, by decide, nofun⟩, rfl⟩

theorem read_render_narrow :
    ∃ text, formula.render? 12 = some text ∧
      Formula.read (.ofVariables [x, p]) text = .ok formula := by
  have branching : formula.Branching := by
    simp [formula, branching_nary, branching_iff_children, children, current, version]
  have named : formula.Named := by
    intro symbol occurs
    rcases mentions occurs with same | same <;> rw [same]
    · exact isName_x
    · exact isName_p
  have visible : formula.Visible (.ofVariables [x, p]) := by
    intro symbol occurs
    rcases mentions occurs with same | same <;> rw [same] <;> decide
  have inside : ¬ formula.HasLeast := by
    simp [formula, hasLeast_iff_exists_child, hasLeast_int, children, current, version]
    decide
  obtain ⟨text, printed, reads, -⟩ := read_render branching named visible (by decide) 12
  exact ⟨text, printed, reads inside⟩

end Mixed

end Formula

end SymbolicSafety
