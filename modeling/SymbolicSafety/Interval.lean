import SymbolicSafety.Foundation.Word

namespace SymbolicSafety

/-! Arithmetic on intervals of integers. Bounds are 128-bit words that stop at
the ends of their range instead of leaving it, so an operation on intervals of
64-bit values never loses a possible result. Truth values are the integers
zero and one. -/

namespace Wide

def least : Int := -0x80000000000000000000000000000000

def greatest : Int := 0x7fffffffffffffffffffffffffffffff

def fits (value : Int) : Bool := least ≤ value && value ≤ greatest

def saturate (value : Int) : Int :=
  if value < least then least else if greatest < value then greatest else value

def add (left right : Int) : Int := saturate (left + right)

def sub (left right : Int) : Int := saturate (left - right)

def mul (left right : Int) : Int := saturate (left * right)

def neg (value : Int) : Int := saturate (-value)

def div? (left right : Int) : Option Int :=
  if fits (left / right) then some (left / right) else none

def mod? (left right : Int) : Option Int :=
  if fits (left / right) then some (left % right) else none

end Wide

/-- The integers from `lo` to `hi`. Nothing keeps the bounds in order: a
variable over an empty range starts out with crossed bounds. -/
structure Interval where
  lo : Int
  hi : Int
  deriving DecidableEq, Repr, Inhabited

namespace Interval

def point (value : Int) : Interval := ⟨value, value⟩

protected def false : Interval := point 0

protected def true : Interval := point 1

def undecided : Interval := ⟨0, 1⟩

def full : Interval := ⟨Wide.least, Wide.greatest⟩

def isPoint (interval : Interval) : Bool := interval.lo = interval.hi

def isTrue (interval : Interval) : Bool := interval = .true

def isFalse (interval : Interval) : Bool := interval = .false

def contains (interval : Interval) (value : Int) : Bool :=
  interval.lo ≤ value && value ≤ interval.hi

instance : Membership Int Interval :=
  ⟨fun interval value => interval.lo ≤ value ∧ value ≤ interval.hi⟩

def width (interval : Interval) : Nat := (interval.hi - interval.lo).natAbs

def clamp? (interval : Interval) (lo hi : Int) : Option Interval :=
  let lo := max interval.lo lo
  let hi := min interval.hi hi
  if lo ≤ hi then some ⟨lo, hi⟩ else none

def intersect? (left right : Interval) : Option Interval := left.clamp? right.lo right.hi

def hull (left right : Interval) : Interval := ⟨min left.lo right.lo, max left.hi right.hi⟩

def split (interval : Interval) : Interval × Interval :=
  let middle := interval.lo + (interval.hi - interval.lo).tdiv 2
  (⟨interval.lo, middle⟩, ⟨middle + 1, interval.hi⟩)

/-! ## Operations -/

def not (interval : Interval) : Interval := ⟨1 - interval.hi, 1 - interval.lo⟩

def and (left right : Interval) : Interval := ⟨min left.lo right.lo, min left.hi right.hi⟩

def or (left right : Interval) : Interval := ⟨max left.lo right.lo, max left.hi right.hi⟩

def neg (interval : Interval) : Interval := ⟨Wide.neg interval.hi, Wide.neg interval.lo⟩

def add (left right : Interval) : Interval :=
  ⟨Wide.add left.lo right.lo, Wide.add left.hi right.hi⟩

/-- The extremes of a product lie at the corners. -/
def mul (left right : Interval) : Interval :=
  let lowLow := Wide.mul left.lo right.lo
  let lowHigh := Wide.mul left.lo right.hi
  let highLow := Wide.mul left.hi right.lo
  let highHigh := Wide.mul left.hi right.hi
  ⟨min (min lowLow lowHigh) (min highLow highHigh),
    max (max lowLow lowHigh) (max highLow highHigh)⟩

def divPoints? (left right : Int) : Option Int :=
  match Word.ofInt? left, Word.ofInt? right with
  | some left, some right => (Word.div? left right).map Int64.toInt
  | _, _ => Wide.div? left right

def modPoints? (left right : Int) : Option Int :=
  match Word.ofInt? left, Word.ofInt? right with
  | some left, some right => (Word.mod? left right).map Int64.toInt
  | _, _ => Wide.mod? left right

def around? : List Int → Option Interval
  | [] => none
  | first :: rest => some (rest.foldl (fun hull value => hull.hull (point value)) (point first))

def cornerQuotients? (dividend divisor : Interval) : Option (List Int) :=
  [(dividend.lo, divisor.lo), (dividend.lo, divisor.hi), (dividend.hi, divisor.lo),
    (dividend.hi, divisor.hi)].mapM fun corner => Wide.div? corner.1 corner.2

/-- Euclidean quotients. On each sign of the divisor the quotient is monotone
in both operands, so its extremes lie at the corners; a divisor of zero adds
the quotient zero. -/
def div (left right : Interval) : Interval :=
  if left.isPoint && right.isPoint then
    match divPoints? left.lo right.lo with
    | some quotient => point quotient
    | none => full
  else
    let zero := if right.contains 0 then [0] else []
    let parts := [right.clamp? Wide.least (-1), right.clamp? 1 Wide.greatest].filterMap id
    match parts.mapM left.cornerQuotients? with
    | none => full
    | some corners => (around? (zero ++ corners.flatten)).getD full

/-- Remainders by a divisor other than just zero: the dividend itself where it
is too small to be changed, else everything below the largest divisor. -/
def remainders (left right : Interval) : Interval :=
  let largest := max right.lo.natAbs right.hi.natAbs
  let smallest :=
    if 0 < right.lo then right.lo.natAbs else if right.hi < 0 then right.hi.natAbs else 1
  if 0 ≤ left.lo ∧ left.hi.natAbs < smallest then left
  else ⟨0, min (largest - 1 : Int) Wide.greatest⟩

def mod (left right : Interval) : Interval :=
  if left.isPoint && right.isPoint then
    match modPoints? left.lo right.lo with
    | some remainder => point remainder
    | none => full
  else if right = point 0 then
    left
  else if right.contains 0 then
    left.hull (remainders left right)
  else
    remainders left right

example : (Interval.mk 7 9).div ⟨2, 3⟩ = ⟨2, 4⟩ := by decide +kernel

example : (Interval.mk 0 20).mod ⟨5, 6⟩ = ⟨0, 5⟩ := by decide +kernel

/-! ## Exact division of bounds -/

/-- The bounds of the numbers whose product with `factor` lies in `target`;
they cross if there are none. Nothing is said about the factor zero or a
target that reaches the end of the range. -/
def quotients? (target : Interval) (factor : Int) : Option (Int × Int) :=
  if factor = 0 ∨ target.lo = Wide.least ∨ target.hi = Wide.greatest then
    none
  else if 0 < factor then
    some (-((-target.lo).fdiv factor), target.hi.fdiv factor)
  else
    some (-((-target.hi).fdiv factor), target.lo.fdiv factor)

example : quotients? ⟨5, 11⟩ 3 = some (2, 3) := by decide

example : quotients? ⟨5, 11⟩ (-3) = some (-3, -2) := by decide

end Interval

/-! ## Comparison -/

inductive Comparison where
  | eq
  | neq
  | lt
  | leq
  deriving DecidableEq, Repr

namespace Comparison

def decided (comparison : Comparison) (left right : Interval) : Bool × Bool :=
  let apart := left.hi < right.lo || right.hi < left.lo
  let same := left.isPoint && left = right
  match comparison with
  | .eq => (same, apart)
  | .neq => (apart, same)
  | .lt => (left.hi < right.lo, right.hi ≤ left.lo)
  | .leq => (left.hi ≤ right.lo, right.hi < left.lo)

def evaluate (comparison : Comparison) (left right : Interval) : Interval :=
  match comparison.decided left right with
  | (true, _) => .true
  | (false, true) => .false
  | (false, false) => .undecided

end Comparison

end SymbolicSafety
