import SymbolicSafety.Foundation.Word

namespace SymbolicSafety

/-! Values, their sorts, and the domains that variables range over. -/

inductive ValueSort where
  | bool
  | int
  deriving DecidableEq, Repr, Inhabited

def ValueSort.text : ValueSort → String
  | .bool => "bool"
  | .int => "int"

inductive Value where
  | bool (value : Bool)
  | int (value : Int64)
  deriving DecidableEq, Repr, Inhabited

namespace Value

def sort : Value → ValueSort
  | .bool _ => .bool
  | .int _ => .int

def text : Value → String
  | .bool value => if value then "true" else "false"
  | .int value => value.toInt.repr

def asBool? : Value → Option Bool
  | .bool value => some value
  | .int _ => none

def asInt? : Value → Option Int64
  | .bool _ => none
  | .int value => some value

end Value

/-- What a variable ranges over: the truth values, all integers, or the
integers from a least to a greatest one. Nothing keeps the two ends of a range
in order; a range whose ends cross has no values. -/
inductive Domain where
  | bool
  | int
  | range (least greatest : Int64)
  deriving DecidableEq, Repr, Inhabited

namespace Domain

def between (left right : Int64) : Domain :=
  if left ≤ right then .range left right else .range right left

def sort : Domain → ValueSort
  | .bool => .bool
  | .int | .range .. => .int

def isInteger (domain : Domain) : Bool := domain.sort = .int

def ends? : Domain → Option (Int64 × Int64)
  | .range least greatest => some (least, greatest)
  | .bool | .int => none

def text : Domain → String
  | .bool => "bool"
  | .int => "int"
  | .range least greatest => "int[" ++ least.toInt.repr ++ ".." ++ greatest.toInt.repr ++ "]"

/-- How many values there are, counted as a 128-bit word: ends that cross by
more than one wrap around. -/
def size? : Domain → Option Nat
  | .bool => some 2
  | .int => none
  | .range least greatest =>
      some ((greatest.toInt - least.toInt + 1) % 0x100000000000000000000000000000000).toNat

def firstValues? (limit : Nat) : Domain → Option (List Value)
  | .bool => some ([.bool false, .bool true].take limit)
  | .int => none
  | .range least greatest =>
      let count := (greatest.toInt - least.toInt + 1).toNat
      some ((List.range (min limit count)).map fun (offset : Nat) =>
        .int (Int64.ofInt (least.toInt + offset)))

def contains : Domain → Value → Bool
  | .bool, .bool _ => true
  | .int, .int _ => true
  | .range least greatest, .int value => least ≤ value && value ≤ greatest
  | _, _ => false

example : between 5 (-2) = .range (-2) 5 := by decide

example : (Domain.range (-2) 5).size? = some 8 := by decide

/-! Domains are ordered only so that variables can be. -/

/-- The kind of domain and its ends, as numbers that compare like the domain. -/
def key : Domain → Nat × Int × Int
  | .bool => (0, 0, 0)
  | .int => (1, 0, 0)
  | .range least greatest => (2, least.toInt, greatest.toInt)

theorem key_injective {left right : Domain} (equal : left.key = right.key) : left = right := by
  cases left <;> cases right <;> simp_all [key, Int64.toInt_inj]

instance : Ord Domain where
  compare left right :=
    compareLex (compareOn (·.key.1))
      (compareLex (compareOn (·.key.2.1)) (compareOn (·.key.2.2))) left right

instance : Std.TransOrd Domain :=
  inferInstanceAs (Std.TransCmp (compareLex (compareOn fun domain : Domain => domain.key.1)
    (compareLex (compareOn (·.key.2.1)) (compareOn (·.key.2.2)))))

instance : Std.LawfulEqOrd Domain where
  eq_of_compare {left right} equal := by
    have parts := Ordering.then_eq_eq.mp equal
    have rest := Ordering.then_eq_eq.mp parts.2
    exact key_injective (Prod.ext (Std.LawfulEqOrd.eq_of_compare parts.1)
      (Prod.ext (Std.LawfulEqOrd.eq_of_compare rest.1) (Std.LawfulEqOrd.eq_of_compare rest.2)))

end Domain

end SymbolicSafety
