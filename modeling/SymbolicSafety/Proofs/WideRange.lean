import SymbolicSafety.Proofs.FixedInputs

namespace SymbolicSafety

/-! Interval arithmetic within the wide range. Every operation on intervals of
wide numbers gives an interval of wide numbers that contains all results in
range. Where an operation takes several steps, no step divides by zero or leaves
the range, so that nothing is lost by computing in words of that width. On single
numbers the results are exact, but for the least number divided by minus one. -/

private theorem ediv_within (bound : Int) {first second : Int} (large : 2 ≤ bound)
    (lower : -bound ≤ first) (upper : first < bound)
    (regular : second = -1 → first ≠ -bound) :
    -bound ≤ first / second ∧ first / second < bound := by
  have smaller := Int.natAbs_ediv_le_natAbs first second
  refine ⟨by omega, Int.lt_of_not_ge fun reached => ?_⟩
  obtain rfl : first = -bound := by omega
  rcases Int.lt_trichotomy second 0 with negative | rfl | positive
  · have divided := Int.mul_ediv_add_emod (-bound) second
    have less := Int.emod_lt (-bound) (Int.ne_of_lt negative)
    have further : second ≤ -2 := by
      have notOne : second ≠ -1 := fun one => regular one rfl
      omega
    -- The quotient is so large that the remainder is not smaller than the divisor.
    have product : -second * bound ≤ -second * (-bound / second) :=
      Int.mul_le_mul_of_nonneg_left reached (by omega)
    have excess : (-second - 1) * 2 ≤ (-second - 1) * bound :=
      Int.mul_le_mul_of_nonneg_left large (by omega)
    rw [Int.sub_mul, Int.sub_mul] at excess
    rw [Int.neg_mul second (-bound / second)] at product
    omega
  · rw [Int.ediv_zero] at reached
    omega
  · have nonpos := Int.ediv_nonpos_of_nonpos_of_neg (by omega : -bound ≤ 0) positive
    omega

namespace Word

theorem isSome_ofInt? {value : Int} (lower : -0x8000000000000000 ≤ value)
    (upper : value < 0x8000000000000000) : (ofInt? value).isSome = true := by
  rw [ofInt?, Int64.toInt_minValue, Int64.toInt_maxValue, if_pos (by omega)]
  rfl

variable {left right : Int64}

theorem isSome_div? (regular : right.toInt = -1 → left.toInt ≠ Int64.minValue.toInt) :
    (div? left right).isSome = true := by
  have within := ediv_within 0x8000000000000000 (by decide) left.le_toInt left.toInt_lt regular
  exact isSome_ofInt? within.1 within.2

theorem isSome_mod? (left right : Int64) : (mod? left right).isSome = (div? left right).isSome := by
  unfold mod?
  split
  next divided =>
    rw [divided]
    by_cases zero : right.toInt = 0
    · rw [zero, Int.emod_zero]
      exact isSome_ofInt? left.le_toInt left.toInt_lt
    · have nonneg := Int.emod_nonneg left.toInt zero
      have less := Int.emod_lt left.toInt zero
      have lower := right.le_toInt
      have upper := right.toInt_lt
      exact isSome_ofInt? (by omega) (by omega)
  next refused => exact (Bool.not_eq_true _ ▸ refused).symm

end Word

namespace Wide

theorem fits_iff (value : Int) : fits value = true ↔ Fits value := by
  simp [fits, Fits]

theorem fits_saturate (value : Int) : Fits (saturate value) := by
  unfold saturate Fits
  split
  · decide
  · split
    · decide
    · omega

theorem saturate_mono {small large : Int} (le : small ≤ large) :
    saturate small ≤ saturate large := by
  unfold saturate
  have ends : least ≤ greatest := by decide
  repeat' split
  all_goals omega

theorem fits_ediv {first second : Int} (fits : Fits first)
    (regular : second = -1 → first ≠ least) : Fits (first / second) := by
  have within := ediv_within (-least) (by decide) (Int.neg_neg least ▸ fits.1)
    (Int.lt_of_le_of_lt fits.2 (by decide)) (Int.neg_neg least ▸ regular)
  simp only [Fits, least, greatest] at *
  omega

/-! ## Division in steps -/

def inRange? (value : Int) : Option Int := if fits value then some value else none

theorem inRange?_eq_some {value : Int} (fits : Fits value) : inRange? value = some value :=
  if_pos ((fits_iff value).mpr fits)

def truncated? (left right : Int) : Option Int :=
  if right = 0 then none else inRange? (left.tdiv right)

/-- The remainder that is left by this quotient. It stops where the quotient
stops, although the remainder would be in range. -/
def remainder? (left right : Int) : Option Int :=
  (truncated? left right).map fun _ => left.tmod right

/-- The quotient rounded up or down: the quotient that is rounded towards zero is
moved by one if a remainder is left and the quotient has the sign for it. -/
def rounded? (upward : Bool) (left right : Int) : Option Int := do
  let quotient ← truncated? left right
  let remainder ← remainder? left right
  if remainder ≠ 0 ∧ (decide (left < 0) == decide (right < 0)) = upward then
    inRange? (if upward then quotient + 1 else quotient - 1)
  else
    some quotient

private theorem natAbs_tdiv_le {left right : Int} (nonzero : right ≠ 0)
    (inexact : ¬ right ∣ left) : 2 * (left.tdiv right).natAbs ≤ left.natAbs := by
  have large : 2 ≤ right.natAbs := by
    have notUnit : right.natAbs ≠ 1 := fun unit =>
      inexact (Int.natAbs_dvd_natAbs.mp (unit ▸ Nat.one_dvd _))
    omega
  have quotient : (left.tdiv right).natAbs = left.natAbs / right.natAbs := Int.natAbs_tdiv ..
  have half : left.natAbs / right.natAbs ≤ left.natAbs / 2 :=
    Nat.div_le_div_left large (by decide)
  omega

private theorem fdiv_eq_of_not_dvd {left right : Int} (nonzero : right ≠ 0)
    (inexact : ¬ right ∣ left) :
    left.fdiv right =
      if decide (left < 0) = decide (right < 0) then left.tdiv right else left.tdiv right - 1 := by
  rw [Int.fdiv_eq_tdiv, if_neg inexact]
  generalize left.tdiv right = quotient
  rcases Int.lt_or_lt_of_ne nonzero with negative | positive
  · rw [Int.sign_eq_neg_one_of_neg negative]
    grind
  · rw [Int.sign_eq_one_of_pos positive]
    grind

theorem rounded?_eq_some (upward : Bool) {left right : Int} (above : least < left)
    (below : left ≤ greatest) (nonzero : right ≠ 0) :
    rounded? upward left right =
      some (if upward then -((-left).fdiv right) else left.fdiv right) := by
  have smaller := Int.natAbs_tdiv_le_natAbs left right
  have fits : Fits (left.tdiv right) := by
    simp only [Fits, least, greatest] at *
    omega
  have quotient : truncated? left right = some (left.tdiv right) := by
    rw [truncated?, if_neg nonzero, inRange?_eq_some fits]
  simp only [rounded?, remainder?, quotient, Option.map_some, Option.bind_eq_bind,
    Option.bind_some]
  by_cases exact : right ∣ left
  · have nothing : left.tmod right = 0 := Int.tmod_eq_zero_of_dvd exact
    simp [nothing, exact, Int.fdiv_eq_tdiv, Int.neg_tdiv]
  · have remains : left.tmod right ≠ 0 := fun nothing => exact (Int.dvd_of_tmod_eq_zero nothing)
    have dividend : left ≠ 0 := fun zero => exact (zero ▸ Int.dvd_zero right)
    have half := natAbs_tdiv_le nonzero exact
    have moved : Fits (left.tdiv right + 1) ∧ Fits (left.tdiv right - 1) := by
      simp only [Fits, least, greatest] at *
      omega
    have opposite : decide (-left < 0) = !decide (left < 0) := by grind
    rw [fdiv_eq_of_not_dvd nonzero exact,
      fdiv_eq_of_not_dvd nonzero (mt (Int.dvd_neg).mp exact), Int.neg_tdiv, opposite]
    cases upward <;> cases decide (left < 0) <;> cases decide (right < 0) <;>
      simp [remains, inRange?_eq_some moved.1, inRange?_eq_some moved.2] <;> omega

end Wide

namespace Interval

/-- The interval has members, and its bounds are in the wide range. -/
structure Proper (interval : Interval) : Prop where
  lower : Wide.least ≤ interval.lo
  ordered : interval.lo ≤ interval.hi
  upper : interval.hi ≤ Wide.greatest

variable {left right interval : Interval}

namespace Proper

theorem fits (proper : interval.Proper) {value : Int} (member : value ∈ interval) :
    Wide.Fits value :=
  ⟨Int.le_trans proper.lower member.1, Int.le_trans member.2 proper.upper⟩

theorem point {value : Int} (fits : Wide.Fits value) : (Interval.point value).Proper :=
  ⟨fits.1, Int.le_refl _, fits.2⟩

theorem full : Interval.full.Proper := ⟨Int.le_refl _, by decide, Int.le_refl _⟩

theorem saturated {lo hi : Int} (le : lo ≤ hi) :
    (Interval.mk (Wide.saturate lo) (Wide.saturate hi)).Proper :=
  ⟨(Wide.fits_saturate lo).1, Wide.saturate_mono le, (Wide.fits_saturate hi).2⟩

theorem neg (proper : interval.Proper) : interval.neg.Proper :=
  saturated (Int.neg_le_neg proper.ordered)

theorem add (first : left.Proper) (second : right.Proper) : (left.add right).Proper :=
  saturated (Int.add_le_add first.ordered second.ordered)

theorem hull (first : left.Proper) (second : right.Proper) : (left.hull right).Proper := by
  obtain ⟨lower, ordered, upper⟩ := first
  obtain ⟨lower', ordered', upper'⟩ := second
  constructor <;> simp only [Interval.hull] <;> omega

theorem mul (left right : Interval) : (left.mul right).Proper := by
  have corner (x y : Int) : Wide.least ≤ Wide.mul x y ∧ Wide.mul x y ≤ Wide.greatest :=
    Wide.fits_saturate (x * y)
  have lowLow := corner left.lo right.lo
  have lowHigh := corner left.lo right.hi
  have highLow := corner left.hi right.lo
  have highHigh := corner left.hi right.hi
  constructor <;> simp only [Interval.mul] <;> omega

theorem around {values : List Int} {hull : Interval} (fits : ∀ value ∈ values, Wide.Fits value)
    (around : around? values = some hull) : hull.Proper := by
  cases values with
  | nil => simp [around?] at around
  | cons first rest =>
      obtain ⟨firstFits, restFits⟩ := List.forall_mem_cons.mp fits
      simp only [around?, Option.some.injEq] at around
      subst around
      have start := point firstFits
      generalize Interval.point first = hull at start
      clear fits firstFits
      induction rest generalizing hull with
      | nil => exact start
      | cons value rest induction =>
          obtain ⟨valueFits, restFits⟩ := List.forall_mem_cons.mp restFits
          exact induction restFits _ (start.hull (point valueFits))

end Proper

/-! ## Quotients and remainders -/

private theorem forall_mem_of_mapM {α β : Type} {change : α → Option β} {holds : β → Prop}
    (each : ∀ value result, change value = some result → holds result) {values : List α}
    {results : List β} (mapped : values.mapM change = some results) :
    ∀ result ∈ results, holds result := by
  induction values generalizing results with
  | nil =>
      obtain rfl : results = [] := by simpa using mapped
      simp
  | cons head rest induction =>
      simp only [List.mapM_cons, Option.bind_eq_bind, Option.bind_eq_some_iff,
        Option.pure_def, Option.some.injEq] at mapped
      obtain ⟨first, changed, others, mappedRest, rfl⟩ := mapped
      exact List.forall_mem_cons.mpr ⟨each head first changed, induction mappedRest⟩

private theorem fits_of_div {first second quotient : Int}
    (divided : Wide.div? first second = some quotient) : Wide.Fits quotient := by
  simp only [Wide.div?] at divided
  split at divided
  next fits => exact Option.some.inj divided ▸ (Wide.fits_iff _).mp fits
  next => simp at divided

private theorem fits_of_divPoints {first second quotient : Int}
    (divided : divPoints? first second = some quotient) : Wide.Fits quotient := by
  unfold divPoints? at divided
  split at divided
  · obtain ⟨word, -, rfl⟩ := Option.map_eq_some_iff.mp divided
    have lower := word.le_toInt
    have upper := word.toInt_lt
    simp only [Wide.Fits, Wide.least, Wide.greatest]
    omega
  · exact fits_of_div divided

theorem Proper.div (left right : Interval) : (left.div right).Proper := by
  unfold Interval.div
  split
  · split
    next quotient divided => exact .point (fits_of_divPoints divided)
    next => exact .full
  · dsimp only
    split
    · exact .full
    next corners mapped =>
      cases around : around? ((if right.contains 0 then [0] else []) ++ corners.flatten) with
      | none => exact .full
      | some hull =>
          refine .around (fun value member => ?_) around
          rcases List.mem_append.mp member with zero | quotient
          · obtain rfl : value = 0 := by
              split at zero <;> simp_all
            exact ⟨by decide, by decide⟩
          · have each : ∀ quotients ∈ corners, ∀ quotient ∈ quotients, Wide.Fits quotient :=
              forall_mem_of_mapM (fun part quotients divided =>
                forall_mem_of_mapM (fun corner quotient => fits_of_div) divided) mapped
            obtain ⟨quotients, inCorners, inQuotients⟩ := List.mem_flatten.mp quotient
            exact each quotients inCorners value inQuotients

theorem fits_emod {first second : Int} (firstFits : Wide.Fits first)
    (secondFits : Wide.Fits second) : Wide.Fits (first % second) := by
  by_cases zero : second = 0
  · rw [zero, Int.emod_zero]
    exact firstFits
  · have nonneg := Int.emod_nonneg first zero
    have less := Int.emod_lt first zero
    simp only [Wide.Fits, Wide.least, Wide.greatest] at *
    omega

theorem largest_pos (nonzero : right ≠ point 0) : 0 < max right.lo.natAbs right.hi.natAbs := by
  have apart : right.lo ≠ 0 ∨ right.hi ≠ 0 := by
    by_cases low : right.lo = 0
    · exact .inr fun high => nonzero (by cases right; simp_all [point])
    · exact .inl low
  omega

theorem Proper.remainders (first : left.Proper) (nonzero : right ≠ .point 0) :
    (left.remainders right).Proper := by
  have largest := largest_pos nonzero
  unfold Interval.remainders
  generalize (if 0 < right.lo then right.lo.natAbs
    else if right.hi < 0 then right.hi.natAbs else 1) = smallest
  dsimp only
  split
  · exact first
  · constructor <;> simp only [Wide.least, Wide.greatest] <;> omega

theorem Proper.mod (first : left.Proper) (second : right.Proper) : (left.mod right).Proper := by
  unfold Interval.mod
  split
  · split
    next remainder divided =>
      rw [eq_of_modPoints divided]
      exact .point (fits_emod (first.fits ⟨Int.le_refl _, first.ordered⟩)
        (second.fits ⟨Int.le_refl _, second.ordered⟩))
    next => exact .full
  · split
    next => exact first
    next nonzero =>
      split
      · exact first.hull (first.remainders nonzero)
      · exact first.remainders nonzero

/-! ## Single numbers -/

section Points

variable {first second : Int}

private theorem isSome_divPoints? (fits : Wide.Fits first)
    (regular : second = -1 → first ≠ Int64.minValue.toInt ∧ first ≠ Wide.least) :
    (divPoints? first second).isSome = true := by
  unfold divPoints?
  split
  next word word' isWord isWord' =>
    rw [Word.ofInt?_eq_some_iff] at isWord isWord'
    subst isWord isWord'
    rw [Option.isSome_map]
    exact Word.isSome_div? fun minusOne => (regular minusOne).1
  next =>
    have quotient := Wide.fits_ediv fits fun minusOne => (regular minusOne).2
    simp [Wide.div?, (Wide.fits_iff _).mpr quotient]

private theorem isSome_modPoints? (first second : Int) :
    (modPoints? first second).isSome = (divPoints? first second).isSome := by
  unfold modPoints? divPoints?
  split
  · rw [Option.isSome_map, Option.isSome_map, Word.isSome_mod?]
  · unfold Wide.mod? Wide.div?
    split <;> rfl

theorem isPoint_div (divided : (divPoints? first second).isSome = true) :
    ((point first).div (point second)).isPoint = true := by
  obtain ⟨quotient, found⟩ := Option.isSome_iff_exists.mp divided
  rw [div, isPoint_point, isPoint_point]
  simp [point, found, isPoint]

theorem isPoint_mod (divided : (divPoints? first second).isSome = true) :
    ((point first).mod (point second)).isPoint = true := by
  rw [← isSome_modPoints?] at divided
  obtain ⟨remainder, found⟩ := Option.isSome_iff_exists.mp divided
  rw [mod, isPoint_point, isPoint_point]
  simp [point, found, isPoint]

end Points

/-! ## Operations in steps

Sums, products and negations are single steps that saturate. The other
operations take several steps, and there is no result if one of them divides by
zero or leaves the range. -/

def signedParts (divisor : Interval) : List Interval :=
  [divisor.clamp? Wide.least (-1), divisor.clamp? 1 Wide.greatest].filterMap id

def cornerQuotientsInSteps? (dividend divisor : Interval) : Option (Option (List Int)) :=
  if divisor.lo = 0 ∨ divisor.hi = 0 then none else some (dividend.cornerQuotients? divisor)

def divInSteps? (left right : Interval) : Option Interval :=
  if left.isPoint && right.isPoint then
    some ((divPoints? left.lo right.lo).elim full point)
  else do
    let zero := if right.contains 0 then [0] else []
    let corners ← right.signedParts.mapM left.cornerQuotientsInSteps?
    some (((corners.mapM id).bind fun corners => around? (zero ++ corners.flatten)).getD full)

private theorem ne_zero_of_mem_signedParts {part : Interval} (member : part ∈ right.signedParts) :
    part.lo ≠ 0 ∧ part.hi ≠ 0 := by
  have apart : right.clamp? Wide.least (-1) = some part ∨
      right.clamp? 1 Wide.greatest = some part := by
    simpa [signedParts, or_comm, eq_comm] using member
  rcases apart with clamped | clamped
  · have lower := clamp_ordered clamped
    have last := (mem_clamp clamped).mp ⟨lower, Int.le_refl _⟩
    omega
  · have upper := clamp_ordered clamped
    have first := (mem_clamp clamped).mp ⟨Int.le_refl _, upper⟩
    omega

private theorem mapM_eq_some_map {α β : Type} {change : α → Option β} {result : α → β}
    {values : List α} (each : ∀ value ∈ values, change value = some (result value)) :
    values.mapM change = some (values.map result) := by
  induction values with
  | nil => rfl
  | cons head rest induction =>
      obtain ⟨first, others⟩ := List.forall_mem_cons.mp each
      simp [first, induction others]

theorem divInSteps?_eq (left right : Interval) :
    left.divInSteps? right = some (left.div right) := by
  unfold divInSteps? Interval.div
  split
  · cases divPoints? left.lo right.lo <;> rfl
  · have steps : right.signedParts.mapM left.cornerQuotientsInSteps? =
        some (right.signedParts.map left.cornerQuotients?) :=
      mapM_eq_some_map fun part member =>
        if_neg (not_or.mpr (ne_zero_of_mem_signedParts member))
    have gathered : (right.signedParts.map left.cornerQuotients?).mapM id =
        right.signedParts.mapM left.cornerQuotients? := List.mapM_map ..
    simp only [steps, Option.bind_eq_bind, Option.bind_some, gathered, Option.some.injEq]
    cases found : right.signedParts.mapM left.cornerQuotients? with
    | none =>
        rw [signedParts] at found
        simp only [found, Option.bind_none, Option.getD_none]
    | some corners =>
        rw [signedParts] at found
        simp only [found, Option.bind_some]

def remaindersInSteps? (left right : Interval) : Option Interval :=
  let largest := max right.lo.natAbs right.hi.natAbs
  let smallest :=
    if 0 < right.lo then right.lo.natAbs else if right.hi < 0 then right.hi.natAbs else 1
  if 0 ≤ left.lo ∧ left.hi.natAbs < smallest then some left
  else if largest = 0 then none
  else some ⟨0, min (largest - 1 : Int) Wide.greatest⟩

def modInSteps? (left right : Interval) : Option Interval :=
  if left.isPoint && right.isPoint then
    some ((modPoints? left.lo right.lo).elim full point)
  else if right = point 0 then
    some left
  else do
    let range ← left.remaindersInSteps? right
    some (if right.contains 0 then left.hull range else range)

theorem modInSteps?_eq (left right : Interval) :
    left.modInSteps? right = some (left.mod right) := by
  unfold modInSteps? Interval.mod
  split
  · cases modPoints? left.lo right.lo <;> rfl
  · split
    · rfl
    next nonzero =>
      have largest : max right.lo.natAbs right.hi.natAbs ≠ 0 :=
        Nat.ne_of_gt (largest_pos nonzero)
      have range : left.remaindersInSteps? right = some (left.remainders right) := by
        simp only [remaindersInSteps?, Interval.remainders, largest, if_false, apply_ite some]
      simp only [range, Option.bind_eq_bind, Option.bind_some, apply_ite some]

def quotientsInSteps? (target : Interval) (factor : Int) : Option (Option (Int × Int)) :=
  if factor = 0 ∨ target.lo = Wide.least ∨ target.hi = Wide.greatest then
    some none
  else if 0 < factor then do
    let lo ← Wide.rounded? true target.lo factor
    let hi ← Wide.rounded? false target.hi factor
    some (some (lo, hi))
  else do
    let lo ← Wide.rounded? true target.hi factor
    let hi ← Wide.rounded? false target.lo factor
    some (some (lo, hi))

theorem quotientsInSteps?_eq {target : Interval} (proper : target.Proper) (factor : Int) :
    target.quotientsInSteps? factor = some (target.quotients? factor) := by
  obtain ⟨lower, ordered, upper⟩ := proper
  unfold quotientsInSteps? quotients?
  split
  · rfl
  next usable =>
    have nonzero : factor ≠ 0 := fun zero => usable (.inl zero)
    have inner : Wide.least < target.lo := by omega
    have round (upward : Bool) := Wide.rounded?_eq_some upward inner (by omega) nonzero
    have round' (upward : Bool) :=
      Wide.rounded?_eq_some upward (by omega : Wide.least < target.hi) upper nonzero
    split <;> simp [round, round']

/-- Away from the ends of the range there are bounds for every factor but zero. -/
theorem exists_quotients_iff {target : Interval} {factor : Int} (nonzero : factor ≠ 0)
    (above : Wide.least < target.lo) (below : target.hi < Wide.greatest) :
    ∃ lo hi, target.quotients? factor = some (lo, hi) ∧
      ∀ x, lo ≤ x ∧ x ≤ hi ↔ x * factor ∈ target := by
  obtain ⟨⟨lo, hi⟩, found⟩ : ∃ bounds, target.quotients? factor = some bounds := by
    unfold quotients?
    rw [if_neg (by omega)]
    split <;> exact ⟨_, rfl⟩
  exact ⟨lo, hi, found, mem_quotients_iff found⟩

end Interval

theorem Comparison.holds_of_evaluate (comparison : Comparison) {left right : Interval} {x y : Int}
    (inLeft : x ∈ left) (inRight : y ∈ right) :
    (comparison.evaluate left right = .true → comparison.holds x y = true) ∧
      (comparison.evaluate left right = .false → comparison.holds x y = false) := by
  have outcome := comparison.holds_mem_evaluate inLeft inRight
  constructor
  · intro certain
    rw [certain, Interval.true, Interval.mem_point] at outcome
    cases held : comparison.holds x y <;> simp_all
  · intro impossible
    rw [impossible, Interval.false, Interval.mem_point] at outcome
    cases held : comparison.holds x y <;> simp_all

namespace Interval

variable {left right : Interval}

/-- All operations on intervals are conservative over the whole wide range. They
contain every result in range, a comparison is decided only if all members agree
on it, no step divides by zero or leaves the range, and the bounds of factors are
exact. On single numbers all results are exact, except where the least word or
the least wide number is divided by minus one. -/
theorem arithmetic_conservative (first : left.Proper) (second : right.Proper) :
    (∀ x ∈ left, ∀ y ∈ right,
      (Wide.Fits (-x) → -x ∈ left.neg) ∧
      (Wide.Fits (x + y) → x + y ∈ left.add right) ∧
      (Wide.Fits (x * y) → x * y ∈ left.mul right) ∧
      (Wide.Fits (x / y) → x / y ∈ left.div right) ∧
      x % y ∈ left.mod right ∧
      (∀ comparison : Comparison,
        (comparison.evaluate left right = .true → comparison.holds x y = true) ∧
        (comparison.evaluate left right = .false → comparison.holds x y = false)) ∧
      (left.isPoint = true → right.isPoint = true →
        (Wide.Fits (-x) → left.neg = point (-x)) ∧
        (Wide.Fits (x + y) → left.add right = point (x + y)) ∧
        (Wide.Fits (x * y) → left.mul right = point (x * y)) ∧
        ((y = -1 → x ≠ Int64.minValue.toInt ∧ x ≠ Wide.least) →
          left.div right = point (x / y) ∧ left.mod right = point (x % y)) ∧
        ∀ comparison : Comparison,
          comparison.evaluate left right = if comparison.holds x y then .true else .false)) ∧
    (left.neg.Proper ∧ (left.add right).Proper ∧ (left.mul right).Proper ∧
      (left.div right).Proper ∧ (left.mod right).Proper) ∧
    (left.divInSteps? right = some (left.div right) ∧
      left.modInSteps? right = some (left.mod right)) ∧
    ∀ factor, left.quotientsInSteps? factor = some (left.quotients? factor) ∧
      (factor ≠ 0 → Wide.least < left.lo → left.hi < Wide.greatest →
        ∃ lo hi, left.quotients? factor = some (lo, hi) ∧
          ∀ x, lo ≤ x ∧ x ≤ hi ↔ x * factor ∈ left) := by
  refine ⟨fun x inLeft y inRight => ?_,
    ⟨first.neg, first.add second, .mul left right, .div left right, first.mod second⟩,
    ⟨divInSteps?_eq left right, modInSteps?_eq left right⟩,
    fun factor => ⟨quotientsInSteps?_eq first factor, exists_quotients_iff⟩⟩
  have quotient := ediv_mem_div inLeft inRight (second.fits inRight)
  have remainder := emod_mem_mod inLeft inRight
    (fits_emod (first.fits inLeft) (second.fits inRight))
  refine ⟨neg_mem_neg inLeft, add_mem_add inLeft inRight, mul_mem_mul inLeft inRight, quotient,
    remainder, fun comparison => comparison.holds_of_evaluate inLeft inRight, ?_⟩
  -- An interval of one member is the point at any member that it has been shown to contain.
  intro leftPoint rightPoint
  refine ⟨fun fits => mem_of_isPoint (isPoint_neg leftPoint) (neg_mem_neg inLeft fits),
    fun fits => mem_of_isPoint (isPoint_add leftPoint rightPoint)
      (add_mem_add inLeft inRight fits),
    fun fits => mem_of_isPoint (isPoint_mul leftPoint rightPoint)
      (mul_mem_mul inLeft inRight fits),
    fun regular => ?_, fun comparison => ?_⟩
  · have divided := isSome_divPoints? (first.fits inLeft) regular
    have fits := Wide.fits_ediv (first.fits inLeft) fun minusOne => (regular minusOne).2
    obtain rfl := mem_of_isPoint leftPoint inLeft
    obtain rfl := mem_of_isPoint rightPoint inRight
    exact ⟨mem_of_isPoint (isPoint_div divided) (quotient fits),
      mem_of_isPoint (isPoint_mod divided) remainder⟩
  · rw [mem_of_isPoint (comparison.isPoint_evaluate leftPoint rightPoint)
      (comparison.holds_mem_evaluate inLeft inRight)]
    cases comparison.holds x y <;> rfl

theorem arithmetic_conservative_straddling :
    (Interval.mk Wide.least 7).Proper ∧ (Interval.mk (-3) 2).Proper ∧
      3 ∈ (Interval.mk Wide.least 7).div ⟨-3, 2⟩ ∧ 2 ∈ (Interval.mk Wide.least 7).mod ⟨-3, 2⟩ ∧
      ∃ lo hi, (Interval.mk (-3) 2).quotients? (-2) = some (lo, hi) ∧
        ∀ x, lo ≤ x ∧ x ≤ hi ↔ x * (-2) ∈ Interval.mk (-3) 2 := by
  have wide : (Interval.mk Wide.least 7).Proper := ⟨by decide, by decide, by decide⟩
  have divisor : (Interval.mk (-3) 2).Proper := ⟨by decide, by decide, by decide⟩
  obtain ⟨results, -⟩ := arithmetic_conservative wide divisor
  obtain ⟨-, -, -, quotient, remainder, -⟩ :=
    results (-7) ⟨by decide, by decide⟩ (-3) ⟨by decide, by decide⟩
  obtain ⟨-, -, -, factors⟩ := arithmetic_conservative divisor divisor
  exact ⟨wide, divisor, quotient ⟨by decide, by decide⟩, remainder,
    (factors (-2)).2 (by decide) (by decide) (by decide)⟩

end Interval

end SymbolicSafety
