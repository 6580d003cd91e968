import SymbolicSafety.Foundation.SortedMap
import SymbolicSafety.Formula.Basic

namespace SymbolicSafety

/-! Walking through a formula from the root, left to right. The walk keeps the
nodes still to be visited in a list, so its depth does not grow with the
formula, and the visitor decides at each node whether to go below it. -/

namespace Formula

theorem sizeAll_append (left right : List Formula) :
    sizeAll (left ++ right) = sizeAll left + sizeAll right := by
  induction left with
  | nil => simp [sizeAll]
  | cons head rest induction => simp [sizeAll, induction, Nat.add_assoc]

theorem sizeAll_children_lt_size (formula : Formula) : sizeAll formula.children < formula.size := by
  cases formula <;> simp [children, size, sizeAll] <;> omega

theorem size_pos (formula : Formula) : 0 < formula.size :=
  Nat.lt_of_le_of_lt (Nat.zero_le _) formula.sizeAll_children_lt_size

/-- Visit the waiting formulas in turn. The visitor is given the state and a
node; it answers whether the children of the node are visited next. -/
def walk (visit : σ → Formula → Bool × σ) (state : σ) (waiting : List Formula) : σ :=
  match waiting with
  | [] => state
  | formula :: waiting =>
      match visit state formula with
      | (true, state) => walk visit state (formula.children ++ waiting)
      | (false, state) => walk visit state waiting
termination_by sizeAll waiting
decreasing_by
  · rw [sizeAll_append, sizeAll]
    have := formula.sizeAll_children_lt_size
    omega
  · rw [sizeAll]
    have := formula.size_pos
    omega

def visited (enter : Formula → Bool) (formula : Formula) : List Formula :=
  (walk (fun seen node => (enter node, node :: seen)) [] [formula]).reverse

def symbols (formula : Formula) : SortedSet Symbol :=
  walk (fun found node =>
    match node with
    | .symbol name => (true, SortedSet.add found name)
    | _ => (true, found)) SortedMap.empty [formula]

def vars (formula : Formula) : SortedSet Variable :=
  SortedSet.addAll SortedMap.empty (formula.symbols.keys.map Symbol.var)

def primedVars (formula : Formula) : SortedSet Variable :=
  walk (fun found node =>
    match node with
    | .unary .prime operand => (false, SortedSet.addAll found operand.vars.keys)
    | _ => (true, found)) SortedMap.empty [formula]

/-- Whether a prime occurs. The walk goes no further below a node once one has
been found. -/
def hasPrime (formula : Formula) : Bool :=
  walk (fun found node =>
    match node with
    | .unary .prime _ => (false, true)
    | _ => (!found, found)) false [formula]

end Formula

end SymbolicSafety
