import SymbolicSafety.Domain
import SymbolicSafety.Foundation.SortedMap

namespace SymbolicSafety

/-! State variables and the symbols that stand for them. A variable is told
apart from others by the position at which it was declared; the same name may
be declared twice. A symbol is a variable read in the current state, or one of
its numbered versions. -/

structure Variable where
  position : Nat
  name : String
  domain : Domain
  deriving DecidableEq, Repr, Inhabited

namespace Variable

/-- Variables are ordered by declaration. Name and domain only break a tie
between variables of different declaration lists. -/
instance : Ord Variable where
  compare left right :=
    compareLex (compareOn position) (compareLex (compareOn name) (compareOn domain)) left right

instance : Std.TransOrd Variable :=
  inferInstanceAs (Std.TransCmp
    (compareLex (compareOn position) (compareLex (compareOn name) (compareOn domain))))

instance : Std.LawfulEqOrd Variable where
  eq_of_compare {left right} equal := by
    have parts := Ordering.then_eq_eq.mp equal
    have rest := Ordering.then_eq_eq.mp parts.2
    have samePosition : left.position = right.position := Std.LawfulEqOrd.eq_of_compare parts.1
    have sameName : left.name = right.name := Std.LawfulEqOrd.eq_of_compare rest.1
    have sameDomain : left.domain = right.domain := Std.LawfulEqOrd.eq_of_compare rest.2
    cases left; cases right; simp_all

end Variable

inductive Symbol where
  | current (var : Variable)
  | version (var : Variable) (index : UInt32)
  deriving DecidableEq, Repr, Inhabited

namespace Symbol

def var : Symbol → Variable
  | .current var => var
  | .version var _ => var

def domain (symbol : Symbol) : Domain := symbol.var.domain

def text : Symbol → String
  | .current var => var.name
  | .version var index => var.name ++ "@" ++ index.toNat.repr

def age : Symbol → Nat
  | .current _ => 0
  | .version _ index => index.toNat + 1

/-- Current-state symbols come first, then the versions by index; symbols of
one age are in the order of their variables. -/
instance : Ord Symbol where
  compare left right := compareLex (compareOn age) (compareOn Symbol.var) left right

instance : Std.TransOrd Symbol :=
  inferInstanceAs (Std.TransCmp (compareLex (compareOn age) (compareOn Symbol.var)))

instance : Std.LawfulEqOrd Symbol where
  eq_of_compare {left right} equal := by
    have parts := Ordering.then_eq_eq.mp equal
    have sameAge : left.age = right.age := Std.LawfulEqOrd.eq_of_compare parts.1
    have sameVariable : left.var = right.var :=
      Std.LawfulEqOrd.eq_of_compare parts.2
    cases left <;> cases right <;> simp_all [age, Symbol.var, UInt32.toNat_inj]

end Symbol

abbrev Valuation := SortedMap Symbol Value

namespace Valuation

def text (valuation : Valuation) : String :=
  "\x7b" ++ ", ".intercalate (valuation.entries.map fun entry =>
    entry.1.text ++ " = " ++ entry.2.text) ++ "\x7d"

end Valuation

end SymbolicSafety
