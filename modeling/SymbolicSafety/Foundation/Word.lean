namespace SymbolicSafety

/-! Machine integers whose arithmetic refuses to leave its range. Literals and
values are 64-bit signed words; versions are 32-bit unsigned words. An
operation answers `none` exactly when the mathematical result does not fit. -/

namespace Word

def ofInt? (value : Int) : Option Int64 :=
  if Int64.minValue.toInt ≤ value ∧ value ≤ Int64.maxValue.toInt then
    some (Int64.ofInt value)
  else
    none

def add? (left right : Int64) : Option Int64 := ofInt? (left.toInt + right.toInt)

def sub? (left right : Int64) : Option Int64 := ofInt? (left.toInt - right.toInt)

def mul? (left right : Int64) : Option Int64 := ofInt? (left.toInt * right.toInt)

def neg? (value : Int64) : Option Int64 := ofInt? (-value.toInt)

/-- Euclidean division, where anything divided by zero is zero. -/
def div? (left right : Int64) : Option Int64 := ofInt? (left.toInt / right.toInt)

/-- Euclidean remainder, where the remainder by zero is the dividend. It is
refused together with the quotient: the least word has no remainder by `-1`,
although zero would fit. -/
def mod? (left right : Int64) : Option Int64 :=
  if (div? left right).isSome then ofInt? (left.toInt % right.toInt) else none

example : div? (-7) 2 = some (-4) ∧ mod? (-7) 2 = some 1 := by decide

example : div? 7 0 = some 0 ∧ mod? 7 0 = some 7 := by decide

example : div? Int64.minValue (-1) = none ∧ mod? Int64.minValue (-1) = none := by decide

end Word

namespace Version

def ofNat? (number : Nat) : Option UInt32 :=
  if number < UInt32.size then some (UInt32.ofNat number) else none

def ofInt? (number : Int) : Option UInt32 := if 0 ≤ number then ofNat? number.toNat else none

def add? (left right : UInt32) : Option UInt32 := ofNat? (left.toNat + right.toNat)

def sub? (left right : UInt32) : Option UInt32 :=
  if right ≤ left then some (left - right) else none

end Version

end SymbolicSafety
