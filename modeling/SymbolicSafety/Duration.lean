namespace SymbolicSafety

/-! Lengths of time and their text. -/

def roundHalfEven (numerator denominator : Nat) : Nat :=
  let quotient := numerator / denominator
  let twice := 2 * (numerator % denominator)
  if twice < denominator ∨ (twice = denominator ∧ quotient % 2 = 0) then quotient
  else quotient + 1

example : roundHalfEven 5 2 = 2 := by decide
example : roundHalfEven 7 2 = 4 := by decide
example : roundHalfEven 8 3 = 3 := by decide

structure Duration where
  nanoseconds : Nat
  deriving DecidableEq, Repr, Inhabited

namespace Duration

def zero : Duration := ⟨0⟩

def ofMilliseconds (count : Nat) : Duration := ⟨count * 1000000⟩

def ofSeconds (count nanoseconds : Nat) : Duration := ⟨count * 1000000000 + nanoseconds⟩

def seconds (duration : Duration) : Nat := duration.nanoseconds / 1000000000

/-- The reading of a clock some time later. Its seconds are counted with 64 bits
and a sign. -/
def after? (reading duration : Duration) : Option Duration :=
  let later : Duration := ⟨reading.nanoseconds + duration.nanoseconds⟩
  if later.seconds < UInt64.size / 2 then some later else none

example : zero.after? (ofSeconds (UInt64.size - 1) 999999999) = none := by decide

def scale (duration : Duration) : Nat × String :=
  if 1000000000 ≤ duration.nanoseconds then (1000000000, "s")
  else if 1000000 ≤ duration.nanoseconds then (1000000, "ms")
  else if 1000 ≤ duration.nanoseconds then (1000, "µs")
  else (1, "ns")

/-- Three places in the largest unit. The unit is chosen before rounding. -/
def text (duration : Duration) : String :=
  let (nanoseconds, sign) := duration.scale
  let thousandths := roundHalfEven (duration.nanoseconds * 1000) nanoseconds
  let places := (thousandths % 1000).repr
  (thousandths / 1000).repr ++ "." ++ "".pushn '0' (3 - places.length) ++ places ++ sign

end Duration

end SymbolicSafety
