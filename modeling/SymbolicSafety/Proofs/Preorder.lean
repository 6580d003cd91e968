import SymbolicSafety.Proofs.Occurrence

namespace SymbolicSafety

/-! The order of visits. A walk keeps its waiting formulas in a list and calls
itself once; it makes the same visits as the recursion that goes through the
children of a node before it goes on to the siblings. Whether children are
visited may depend on everything that the visitor has seen before. -/

namespace Formula

/-! ## The recursion -/

/-- Visit the formulas in turn, each followed by its children where the visitor
asks for them. The nodes are listed in the order of the visits, together with
the last state. -/
def preorder (visit : σ → Formula → Bool × σ) (state : σ) (formulas : List Formula) :
    List Formula × σ :=
  match formulas with
  | [] => ([], state)
  | formula :: siblings =>
      match visit state formula with
      | (true, state) =>
          let below := preorder visit state formula.children
          let after := preorder visit below.2 siblings
          (formula :: (below.1 ++ after.1), after.2)
      | (false, state) =>
          let after := preorder visit state siblings
          (formula :: after.1, after.2)
termination_by sizeAll formulas
decreasing_by
  all_goals
    have := formula.sizeAll_children_lt_size
    simp only [sizeAll]
    omega

def recording (visit : σ → Formula → Bool × σ) (seen : List Formula × σ) (node : Formula) :
    Bool × (List Formula × σ) :=
  ((visit seen.2 node).1, seen.1 ++ [node], (visit seen.2 node).2)

theorem walk_append (visit : σ → Formula → Bool × σ) (state : σ) (first second : List Formula) :
    walk visit state (first ++ second) = walk visit (walk visit state first) second := by
  fun_induction walk visit state first with
  | case1 => rfl
  | case2 state formula waiting next visited induction =>
      rw [List.cons_append, walk, visited, ← List.append_assoc]
      exact induction
  | case3 state formula waiting next visited induction =>
      rw [List.cons_append, walk, visited]
      exact induction

theorem walk_eq_preorder (visit : σ → Formula → Bool × σ) (state : σ) (waiting : List Formula) :
    walk visit state waiting = (preorder visit state waiting).2 := by
  fun_induction preorder visit state waiting with
  | case1 => rw [walk]
  | case2 state formula siblings next visited below after belowCase afterCase =>
      rw [walk, visited]
      simp only [walk_append, belowCase]
      exact afterCase
  | case3 state formula siblings next visited after afterCase =>
      rw [walk, visited]
      exact afterCase

theorem walk_recording (visit : σ → Formula → Bool × σ) (seen : List Formula) (state : σ)
    (waiting : List Formula) :
    walk (recording visit) (seen, state) waiting =
      (seen ++ (preorder visit state waiting).1, (preorder visit state waiting).2) := by
  fun_induction preorder visit state waiting generalizing seen with
  | case1 => simp [walk]
  | case2 state formula siblings next visited below after belowCase afterCase =>
      rw [walk]
      simp [recording, visited, walk_append, belowCase, afterCase, below, after]
  | case3 state formula siblings next visited after afterCase =>
      rw [walk]
      simp [recording, visited, afterCase, after]

theorem visited_eq_preorder (enter : Formula → Bool) (formula : Formula) :
    visited enter formula = (preorder (fun _ node => (enter node, ())) () [formula]).1 := by
  have collected (seen waiting : List Formula) :
      walk (fun seen node => (enter node, node :: seen)) seen waiting =
        (preorder (fun _ node => (enter node, ())) () waiting).1.reverse ++ seen := by
    fun_induction preorder (fun _ node => (enter node, ())) () waiting generalizing seen with
    | case1 => simp [walk]
    | case2 state formula siblings next visited below after belowCase afterCase =>
        obtain ⟨entered, -⟩ := Prod.mk.inj visited
        rw [walk]
        simp [entered, walk_append, belowCase, afterCase, below, after]
    | case3 state formula siblings next visited after afterCase =>
        obtain ⟨skipped, -⟩ := Prod.mk.inj visited
        rw [walk]
        simp [skipped, afterCase, after]
  rw [visited, collected, List.append_nil, List.reverse_reverse]

/-! ## The stack -/

theorem sizeAll_reverse (formulas : List Formula) :
    sizeAll formulas.reverse = sizeAll formulas := by
  induction formulas with
  | nil => rfl
  | cons head rest induction =>
      rw [List.reverse_cons, sizeAll_append, induction, sizeAll, sizeAll, sizeAll]
      omega

theorem sizeAll_dropLast {stack : List Formula} {formula : Formula}
    (taken : stack.getLast? = some formula) :
    sizeAll stack = sizeAll stack.dropLast + formula.size := by
  obtain ⟨below, rfl⟩ := List.getLast?_eq_some_iff.mp taken
  rw [sizeAll_append, List.dropLast_concat, sizeAll, sizeAll, Nat.add_zero]

/-- The walk on a stack that grows and shrinks at its end: the children of a node
are put on it in reverse, so that the first of them is the next to be taken. -/
def walkStack (visit : σ → Formula → Bool × σ) (state : σ) (stack : List Formula) : σ :=
  match taken : stack.getLast? with
  | none => state
  | some formula =>
      have := sizeAll_dropLast taken
      match visit state formula with
      | (true, state) => walkStack visit state (stack.dropLast ++ formula.children.reverse)
      | (false, state) => walkStack visit state stack.dropLast
termination_by sizeAll stack
decreasing_by
  · have := formula.sizeAll_children_lt_size
    rw [sizeAll_append, sizeAll_reverse]
    omega
  · have := formula.size_pos
    omega

theorem walkStack_eq_walk (visit : σ → Formula → Bool × σ) (state : σ) (stack : List Formula) :
    walkStack visit state stack = walk visit state stack.reverse := by
  fun_induction walkStack visit state stack with
  | case1 state stack taken =>
      rw [List.getLast?_eq_none_iff.mp taken, List.reverse_nil, walk]
  | case2 state stack formula taken smaller next visited induction =>
      obtain ⟨below, rfl⟩ := List.getLast?_eq_some_iff.mp taken
      rw [induction]
      simp [walk, visited]
  | case3 state stack formula taken smaller next visited induction =>
      obtain ⟨below, rfl⟩ := List.getLast?_eq_some_iff.mp taken
      rw [induction]
      simp [walk, visited]

/-! ## All nodes -/

theorem size_eq (formula : Formula) : formula.size = sizeAll formula.children + 1 := by
  cases formula <;> simp [children, size, sizeAll] <;> omega

def nodes (formula : Formula) : List Formula :=
  (preorder (fun _ _ => (true, ())) () [formula]).1

theorem length_nodes (formula : Formula) : formula.nodes.length = formula.size := by
  have counted (formulas : List Formula) :
      (preorder (fun _ _ => (true, ())) () formulas).1.length = sizeAll formulas := by
    fun_induction preorder (fun _ _ => (true, ())) () formulas with
    | case1 => rfl
    | case2 state formula siblings next visited below after belowCase afterCase =>
        have belowLength : below.1.length = sizeAll formula.children := belowCase
        have afterLength : after.1.length = sizeAll siblings := afterCase
        simp only [List.length_cons, List.length_append, sizeAll, size_eq formula]
        omega
    | case3 state formula siblings next visited => simp at visited
  rw [nodes, counted, sizeAll, sizeAll, Nat.add_zero]

theorem mem_nodes_iff (part formula : Formula) : part ∈ formula.nodes ↔ Occurs part formula := by
  have listed (formulas : List Formula) :
      part ∈ (preorder (fun _ _ => (true, ())) () formulas).1 ↔
        ∃ formula ∈ formulas, Occurs part formula := by
    fun_induction preorder (fun _ _ => (true, ())) () formulas with
    | case1 => simp
    | case2 state formula siblings next visited below after belowCase afterCase =>
        have inBelow : part ∈ below.1 ↔ ∃ child ∈ formula.children, Occurs part child := belowCase
        have inAfter : part ∈ after.1 ↔ ∃ sibling ∈ siblings, Occurs part sibling := afterCase
        simp only [List.mem_cons, List.mem_append, inBelow, inAfter, or_and_right, exists_or,
          exists_eq_left, occurs_iff part formula, or_assoc]
    | case3 state formula siblings next visited => simp at visited
  simp [nodes, listed]

theorem walk_count (formula : Formula) :
    walk (fun count _ => (true, count + 1)) 0 [formula] = formula.size := by
  have counted (count : Nat) (waiting : List Formula) :
      walk (fun count _ => (true, count + 1)) count waiting = count + sizeAll waiting := by
    fun_induction walk (fun count (_ : Formula) => (true, count + 1)) count waiting with
    | case1 => rfl
    | case2 count formula waiting next visited induction =>
        obtain ⟨-, rfl⟩ := Prod.mk.inj visited
        rw [induction, sizeAll_append, sizeAll, size_eq formula]
        omega
    | case3 count formula waiting next visited => simp at visited
  rw [counted, sizeAll, sizeAll, Nat.zero_add, Nat.add_zero]

/-- A walk visits the nodes of a formula in the order of the recursion, whatever
the visitor remembers and wherever it stops. A walk that enters every node
counts the nodes; the collected symbols, the variables below primes and the
answer whether there is a prime are what occurs in the formula. -/
theorem walk_visits_preorder (formula : Formula) :
    (∀ {σ : Type u} (visit : σ → Formula → Bool × σ) (state : σ),
      walk (recording visit) ([], state) [formula] = preorder visit state [formula] ∧
      walkStack (recording visit) ([], state) [formula] = preorder visit state [formula] ∧
      walk visit state [formula] = (preorder visit state [formula]).2) ∧
    (∀ enter, visited enter formula =
      (preorder (fun _ node => (enter node, ())) () [formula]).1) ∧
    (walk (fun count _ => (true, count + 1)) 0 [formula] = formula.size ∧
      formula.size = formula.nodes.length ∧ ∀ part, part ∈ formula.nodes ↔ Occurs part formula) ∧
    (∀ symbol, symbol ∈ formula.symbols.keys ↔ Occurs (.symbol symbol) formula) ∧
    (∀ var, var ∈ formula.primedVars.keys ↔ ∃ operand symbol,
      Occurs (.unary .prime operand) formula ∧ Occurs (.symbol symbol) operand ∧
        symbol.var = var) ∧
    (formula.hasPrime = true ↔ ∃ operand, Occurs (.unary .prime operand) formula) := by
  refine ⟨fun visit state => ⟨?_, ?_, walk_eq_preorder visit state _⟩,
    fun enter => visited_eq_preorder enter formula,
    ⟨walk_count formula, (length_nodes formula).symm, fun part => mem_nodes_iff part formula⟩,
    mem_symbols_iff formula, fun var => ?_, hasPrime_iff formula⟩
  · rw [walk_recording, List.nil_append]
  · rw [walkStack_eq_walk, List.reverse_singleton, walk_recording, List.nil_append]
  · rw [mem_primedVars_iff]
    simp only [Primes, Mentions, exists_and_left]

end Formula

end SymbolicSafety
