import SymbolicSafety.Interval

namespace SymbolicSafety

/-! Interval arithmetic loses no result that fits the wide range. Each
operation on intervals contains the results of the operation on their members;
the saturation of bounds can only widen an interval as far as such results are
concerned. -/

namespace Word

theorem ofInt?_eq_some_iff (value : Int) (word : Int64) :
    ofInt? value = some word ↔ word.toInt = value := by
  have lower := word.le_toInt
  have upper := word.toInt_lt
  unfold ofInt?
  rw [Int64.toInt_minValue, Int64.toInt_maxValue]
  split
  next inRange =>
    have exact : (Int64.ofInt value).toInt = value :=
      Int64.toInt_ofInt_of_le inRange.1 (by omega)
    rw [Option.some.injEq, ← Int64.toInt_inj, exact, eq_comm]
  next outside =>
    simp only [reduceCtorEq, false_iff]
    omega

theorem div?_eq_some_iff (left right result : Int64) :
    div? left right = some result ↔ result.toInt = left.toInt / right.toInt :=
  ofInt?_eq_some_iff _ _

theorem mod?_eq_some_of {left right result : Int64} (remainder : mod? left right = some result) :
    result.toInt = left.toInt % right.toInt := by
  unfold mod? at remainder
  split at remainder
  · exact (ofInt?_eq_some_iff _ _).mp remainder
  · simp at remainder

end Word

namespace Wide

/-- The number is in the wide range. -/
def Fits (value : Int) : Prop := least ≤ value ∧ value ≤ greatest

theorem saturate_le {bound value : Int} (fits : Fits value) (le : bound ≤ value) :
    saturate bound ≤ value := by
  unfold saturate Fits at *
  split
  · exact fits.1
  · split <;> omega

theorem le_saturate {bound value : Int} (fits : Fits value) (le : value ≤ bound) :
    value ≤ saturate bound := by
  unfold saturate Fits at *
  split
  · omega
  · split <;> omega

end Wide

namespace Interval

theorem mem_iff (interval : Interval) (value : Int) :
    value ∈ interval ↔ interval.lo ≤ value ∧ value ≤ interval.hi := Iff.rfl

@[simp] theorem mem_point (value other : Int) : other ∈ point value ↔ other = value := by
  simp only [mem_iff, point]
  omega

theorem mem_full {value : Int} (fits : Wide.Fits value) : value ∈ full := fits

theorem mem_of_isPoint {interval : Interval} {value : Int} (isPoint : interval.isPoint = true)
    (member : value ∈ interval) : interval = point value := by
  have equal : interval.lo = interval.hi := by simpa [Interval.isPoint] using isPoint
  obtain ⟨lower, upper⟩ := member
  cases interval
  simp only [point, mk.injEq] at *
  omega

theorem contains_eq_true_iff (interval : Interval) (value : Int) :
    interval.contains value = true ↔ value ∈ interval := by
  simp [contains, mem_iff]

theorem eq_one_of_isTrue {interval : Interval} {value : Int} (isTrue : interval.isTrue = true)
    (member : value ∈ interval) : value = 1 := by
  have equal : interval = .true := by simpa [Interval.isTrue] using isTrue
  simpa [equal, Interval.true] using member

theorem eq_zero_of_isFalse {interval : Interval} {value : Int}
    (isFalse : interval.isFalse = true) (member : value ∈ interval) : value = 0 := by
  have equal : interval = .false := by simpa [Interval.isFalse] using isFalse
  simpa [equal, Interval.false] using member

/-! ## Parts of intervals -/

theorem mem_clamp {interval narrowed : Interval} {lo hi value : Int}
    (clamped : interval.clamp? lo hi = some narrowed) :
    value ∈ narrowed ↔ value ∈ interval ∧ lo ≤ value ∧ value ≤ hi := by
  simp only [clamp?] at clamped
  split at clamped
  · simp only [Option.some.injEq] at clamped
    subst clamped
    simp only [mem_iff]
    omega
  · simp at clamped

theorem clamp_isSome {interval : Interval} {lo hi value : Int} (member : value ∈ interval)
    (above : lo ≤ value) (below : value ≤ hi) :
    ∃ narrowed, interval.clamp? lo hi = some narrowed := by
  have ordered : max interval.lo lo ≤ min interval.hi hi := by
    rw [mem_iff] at member
    omega
  exact ⟨_, if_pos ordered⟩

theorem clamp_ordered {interval narrowed : Interval} {lo hi : Int}
    (clamped : interval.clamp? lo hi = some narrowed) : narrowed.lo ≤ narrowed.hi := by
  simp only [clamp?] at clamped
  split at clamped
  next ordered =>
    simp only [Option.some.injEq] at clamped
    exact clamped ▸ ordered
  next => simp at clamped

theorem clamp_within {interval narrowed : Interval} {lo hi : Int}
    (clamped : interval.clamp? lo hi = some narrowed) :
    interval.lo ≤ narrowed.lo ∧ narrowed.hi ≤ interval.hi := by
  have ordered := clamp_ordered clamped
  have lower : narrowed.lo ∈ narrowed := ⟨Int.le_refl _, ordered⟩
  have upper : narrowed.hi ∈ narrowed := ⟨ordered, Int.le_refl _⟩
  exact ⟨((mem_clamp clamped).mp lower).1.1, ((mem_clamp clamped).mp upper).1.2⟩

theorem mem_intersect {left right narrowed : Interval} {value : Int}
    (intersected : left.intersect? right = some narrowed) :
    value ∈ narrowed ↔ value ∈ left ∧ value ∈ right := by
  rw [mem_clamp intersected, mem_iff right]

theorem intersect_isSome {left right : Interval} {value : Int} (first : value ∈ left)
    (second : value ∈ right) : ∃ narrowed, left.intersect? right = some narrowed :=
  clamp_isSome first second.1 second.2

theorem mem_hull_left {left : Interval} {value : Int} (right : Interval)
    (member : value ∈ left) : value ∈ left.hull right := by
  rw [mem_iff] at member ⊢
  simp only [hull]
  omega

theorem mem_hull_right {right : Interval} {value : Int} (left : Interval)
    (member : value ∈ right) : value ∈ left.hull right := by
  rw [mem_iff] at member ⊢
  simp only [hull]
  omega

theorem mem_split {interval : Interval} (ordered : interval.lo ≤ interval.hi) (value : Int) :
    value ∈ interval ↔ value ∈ interval.split.1 ∨ value ∈ interval.split.2 := by
  have half : (interval.hi - interval.lo).tdiv 2 = (interval.hi - interval.lo) / 2 :=
    Int.tdiv_eq_ediv_of_nonneg (by omega)
  simp only [mem_iff, split, half]
  omega

theorem split_ordered {interval : Interval} (wide : interval.lo < interval.hi) :
    interval.split.1.lo ≤ interval.split.1.hi ∧ interval.split.2.lo ≤ interval.split.2.hi := by
  have half : (interval.hi - interval.lo).tdiv 2 = (interval.hi - interval.lo) / 2 :=
    Int.tdiv_eq_ediv_of_nonneg (by omega)
  simp only [split, half]
  omega

/-! ## Sums and negation -/

theorem neg_mem_neg {interval : Interval} {value : Int} (member : value ∈ interval)
    (fits : Wide.Fits (-value)) : -value ∈ interval.neg := by
  rw [mem_iff] at member
  exact ⟨Wide.saturate_le fits (by omega), Wide.le_saturate fits (by omega)⟩

theorem add_mem_add {left right : Interval} {first second : Int} (inLeft : first ∈ left)
    (inRight : second ∈ right) (fits : Wide.Fits (first + second)) :
    first + second ∈ left.add right := by
  rw [mem_iff] at inLeft inRight
  exact ⟨Wide.saturate_le fits (by omega), Wide.le_saturate fits (by omega)⟩

/-! ## Products

A product is bilinear, so some corner lies on either side of it. -/

private theorem exists_mul_le {lo hi value : Int} (factor : Int) (above : lo ≤ value)
    (below : value ≤ hi) : lo * factor ≤ value * factor ∨ hi * factor ≤ value * factor := by
  rcases Int.le_total 0 factor with nonneg | nonpos
  · exact .inl (Int.mul_le_mul_of_nonneg_right above nonneg)
  · exact .inr (Int.mul_le_mul_of_nonpos_right below nonpos)

private theorem exists_le_mul {lo hi value : Int} (factor : Int) (above : lo ≤ value)
    (below : value ≤ hi) : value * factor ≤ lo * factor ∨ value * factor ≤ hi * factor := by
  rcases Int.le_total 0 factor with nonneg | nonpos
  · exact .inr (Int.mul_le_mul_of_nonneg_right below nonneg)
  · exact .inl (Int.mul_le_mul_of_nonpos_right above nonpos)

private theorem exists_corner_le {left right : Interval} {first second : Int}
    (inLeft : first ∈ left) (inRight : second ∈ right) :
    ∃ x ∈ [left.lo, left.hi], ∃ y ∈ [right.lo, right.hi], x * y ≤ first * second := by
  obtain ⟨x, edge, lower⟩ : ∃ x ∈ [left.lo, left.hi], x * second ≤ first * second := by
    rcases exists_mul_le second inLeft.1 inLeft.2 with lower | lower
    · exact ⟨left.lo, by simp, lower⟩
    · exact ⟨left.hi, by simp, lower⟩
  rcases exists_mul_le x inRight.1 inRight.2 with lower' | lower' <;>
    rw [Int.mul_comm _ x, Int.mul_comm second x] at lower'
  · exact ⟨x, edge, right.lo, by simp, Int.le_trans lower' lower⟩
  · exact ⟨x, edge, right.hi, by simp, Int.le_trans lower' lower⟩

private theorem exists_le_corner {left right : Interval} {first second : Int}
    (inLeft : first ∈ left) (inRight : second ∈ right) :
    ∃ x ∈ [left.lo, left.hi], ∃ y ∈ [right.lo, right.hi], first * second ≤ x * y := by
  obtain ⟨x, edge, upper⟩ : ∃ x ∈ [left.lo, left.hi], first * second ≤ x * second := by
    rcases exists_le_mul second inLeft.1 inLeft.2 with upper | upper
    · exact ⟨left.lo, by simp, upper⟩
    · exact ⟨left.hi, by simp, upper⟩
  rcases exists_le_mul x inRight.1 inRight.2 with upper' | upper' <;>
    rw [Int.mul_comm second x, Int.mul_comm _ x] at upper'
  · exact ⟨x, edge, right.lo, by simp, Int.le_trans upper upper'⟩
  · exact ⟨x, edge, right.hi, by simp, Int.le_trans upper upper'⟩

theorem mul_mem_mul {left right : Interval} {first second : Int} (inLeft : first ∈ left)
    (inRight : second ∈ right) (fits : Wide.Fits (first * second)) :
    first * second ∈ left.mul right := by
  obtain ⟨x, xEdge, y, yEdge, lower⟩ := exists_corner_le inLeft inRight
  obtain ⟨u, uEdge, v, vEdge, upper⟩ := exists_le_corner inLeft inRight
  have low : Wide.mul x y ≤ first * second := Wide.saturate_le fits lower
  have high : first * second ≤ Wide.mul u v := Wide.le_saturate fits upper
  simp only [List.mem_cons, List.not_mem_nil, or_false] at xEdge yEdge uEdge vEdge
  simp only [mem_iff, mul]
  constructor
  · rcases xEdge with rfl | rfl <;> rcases yEdge with rfl | rfl <;> omega
  · rcases uEdge with rfl | rfl <;> rcases vEdge with rfl | rfl <;> omega

/-! ## Quotients -/

private theorem mem_foldl_hull (values : List Int) (start : Interval) (value : Int)
    (member : value ∈ start ∨ value ∈ values) :
    value ∈ values.foldl (fun hull value => hull.hull (point value)) start := by
  induction values generalizing start with
  | nil => simpa using member
  | cons head rest induction =>
      rw [List.foldl_cons]
      apply induction
      rcases member with held | member
      · exact .inl (mem_hull_left _ held)
      · rcases List.mem_cons.mp member with rfl | member
        · exact .inl (mem_hull_right _ (by simp))
        · exact .inr member

private theorem mem_around {values : List Int} {hull : Interval} {value : Int}
    (around : around? values = some hull) (member : value ∈ values) : value ∈ hull := by
  cases values with
  | nil => simp at member
  | cons head rest =>
      simp only [around?, Option.some.injEq] at around
      subst around
      apply mem_foldl_hull
      simpa using member

private theorem ediv_le_ediv_of_nonneg {value small large : Int} (nonneg : 0 ≤ value)
    (positive : 0 < small) (le : small ≤ large) : value / large ≤ value / small := by
  rw [Int.le_ediv_iff_mul_le positive]
  have quotient : 0 ≤ value / large := Int.ediv_nonneg nonneg (by omega)
  calc value / large * small ≤ value / large * large :=
        Int.mul_le_mul_of_nonneg_left le quotient
    _ ≤ value := Int.ediv_mul_le value (by omega)

private theorem ediv_le_ediv_of_neg {value small large : Int} (negative : value < 0)
    (positive : 0 < small) (le : small ≤ large) : value / small ≤ value / large := by
  rw [Int.le_ediv_iff_mul_le (by omega)]
  have quotient : value / small ≤ 0 :=
    Int.le_of_lt (Int.ediv_neg_of_neg_of_pos negative positive)
  calc value / small * large ≤ value / small * small :=
        Int.mul_le_mul_of_nonpos_left quotient le
    _ ≤ value := Int.ediv_mul_le value (by omega)

private theorem exists_quotients_of_pos {left : Interval} {value divisor lo hi : Int}
    (member : value ∈ left) (positive : 0 < lo) (above : lo ≤ divisor) (below : divisor ≤ hi) :
    (∃ x ∈ [left.lo, left.hi], ∃ y ∈ [lo, hi], x / y ≤ value / divisor) ∧
      ∃ x ∈ [left.lo, left.hi], ∃ y ∈ [lo, hi], value / divisor ≤ x / y := by
  have lower : left.lo / divisor ≤ value / divisor := Int.ediv_le_ediv (by omega) member.1
  have upper : value / divisor ≤ left.hi / divisor := Int.ediv_le_ediv (by omega) member.2
  constructor
  · by_cases negative : left.lo < 0
    · exact ⟨left.lo, by simp, lo, by simp,
        Int.le_trans (ediv_le_ediv_of_neg negative positive above) lower⟩
    · exact ⟨left.lo, by simp, hi, by simp,
        Int.le_trans (ediv_le_ediv_of_nonneg (by omega) (by omega) below) lower⟩
  · by_cases negative : left.hi < 0
    · exact ⟨left.hi, by simp, hi, by simp,
        Int.le_trans upper (ediv_le_ediv_of_neg negative (by omega) below)⟩
    · exact ⟨left.hi, by simp, lo, by simp,
        Int.le_trans upper (ediv_le_ediv_of_nonneg (by omega) positive above)⟩

private theorem exists_quotients {left part : Interval} {value divisor : Int}
    (member : value ∈ left) (inPart : divisor ∈ part) (apart : 0 < part.lo ∨ part.hi < 0) :
    (∃ x ∈ [left.lo, left.hi], ∃ y ∈ [part.lo, part.hi], x / y ≤ value / divisor) ∧
      ∃ x ∈ [left.lo, left.hi], ∃ y ∈ [part.lo, part.hi], value / divisor ≤ x / y := by
  rw [mem_iff] at inPart
  rcases apart with positive | negative
  · exact exists_quotients_of_pos member positive inPart.1 inPart.2
  · obtain ⟨⟨x, xEdge, y, yEdge, lower⟩, u, uEdge, v, vEdge, upper⟩ :=
      exists_quotients_of_pos member (by omega : 0 < -part.hi)
        (by omega : -part.hi ≤ -divisor) (by omega : -divisor ≤ -part.lo)
    rw [Int.ediv_neg] at lower upper
    have edge (w : Int) (isEdge : w ∈ [-part.hi, -part.lo]) : -w ∈ [part.lo, part.hi] := by
      simp only [List.mem_cons, List.not_mem_nil, or_false] at isEdge ⊢
      omega
    refine ⟨⟨u, uEdge, -v, edge v vEdge, ?_⟩, x, xEdge, -y, edge y yEdge, ?_⟩
    · rw [Int.ediv_neg]
      omega
    · rw [Int.ediv_neg]
      omega

private theorem exists_mem_of_mapM {α β : Type} {change : α → Option β} {values : List α}
    {results : List β} (mapped : values.mapM change = some results) {value : α}
    (member : value ∈ values) : ∃ result ∈ results, change value = some result := by
  induction values generalizing results with
  | nil => simp at member
  | cons head rest induction =>
      simp only [List.mapM_cons, Option.bind_eq_bind, Option.bind_eq_some_iff,
        Option.pure_def, Option.some.injEq] at mapped
      obtain ⟨first, changed, others, mappedRest, rfl⟩ := mapped
      rcases List.mem_cons.mp member with rfl | member
      · exact ⟨first, by simp, changed⟩
      · obtain ⟨result, inOthers, equal⟩ := induction mappedRest member
        exact ⟨result, by simp [inOthers], equal⟩

private theorem mem_cornerQuotients {left part : Interval} {corners : List Int}
    (found : left.cornerQuotients? part = some corners) {x y : Int}
    (xEdge : x ∈ [left.lo, left.hi]) (yEdge : y ∈ [part.lo, part.hi]) : x / y ∈ corners := by
  have corner : (x, y) ∈ [(left.lo, part.lo), (left.lo, part.hi), (left.hi, part.lo),
      (left.hi, part.hi)] := by
    simp only [List.mem_cons, List.not_mem_nil, or_false, Prod.mk.injEq] at *
    grind
  obtain ⟨quotient, member, divided⟩ := exists_mem_of_mapM found corner
  simp only [Wide.div?] at divided
  split at divided
  · rw [Option.some.injEq] at divided
    exact divided ▸ member
  · simp at divided

private theorem mem_around_of_between {values : List Int} {hull : Interval} {low high value : Int}
    (around : around? values = some hull) (lowMember : low ∈ values) (above : low ≤ value)
    (highMember : high ∈ values) (below : value ≤ high) : value ∈ hull := by
  have lower := (mem_around around lowMember).1
  have upper := (mem_around around highMember).2
  exact ⟨Int.le_trans lower above, Int.le_trans below upper⟩

theorem eq_of_divPoints {first second quotient : Int}
    (divided : divPoints? first second = some quotient) : quotient = first / second := by
  unfold divPoints? at divided
  split at divided
  next left right leftWord rightWord =>
    rw [Word.ofInt?_eq_some_iff] at leftWord rightWord
    obtain ⟨word, found, rfl⟩ := Option.map_eq_some_iff.mp divided
    rw [(Word.div?_eq_some_iff _ _ _).mp found, leftWord, rightWord]
  next =>
    simp only [Wide.div?] at divided
    split at divided <;> simp_all

private theorem exists_part {right : Interval} {divisor : Int} (member : divisor ∈ right)
    (nonzero : divisor ≠ 0) (fits : Wide.Fits divisor) :
    ∃ part ∈ [right.clamp? Wide.least (-1), right.clamp? 1 Wide.greatest].filterMap id,
      divisor ∈ part ∧ (0 < part.lo ∨ part.hi < 0) := by
  by_cases negative : divisor < 0
  · obtain ⟨part, clamped⟩ := clamp_isSome member fits.1 (by omega : divisor ≤ -1)
    have last : part.hi ∈ right ∧ Wide.least ≤ part.hi ∧ part.hi ≤ -1 :=
      (mem_clamp clamped).mp ⟨clamp_ordered clamped, by omega⟩
    exact ⟨part, by simp [clamped], (mem_clamp clamped).mpr ⟨member, fits.1, by omega⟩,
      .inr (by omega)⟩
  · obtain ⟨part, clamped⟩ := clamp_isSome member (by omega : 1 ≤ divisor) fits.2
    have first : part.lo ∈ right ∧ 1 ≤ part.lo ∧ part.lo ≤ Wide.greatest :=
      (mem_clamp clamped).mp ⟨by omega, clamp_ordered clamped⟩
    exact ⟨part, by simp [clamped], (mem_clamp clamped).mpr ⟨member, by omega, fits.2⟩,
      .inl (by omega)⟩

theorem ediv_mem_div {left right : Interval} {first second : Int} (inLeft : first ∈ left)
    (inRight : second ∈ right) (fitsSecond : Wide.Fits second)
    (fits : Wide.Fits (first / second)) : first / second ∈ left.div right := by
  unfold div
  split
  next points =>
    rw [Bool.and_eq_true] at points
    rw [mem_of_isPoint points.1 inLeft, mem_of_isPoint points.2 inRight]
    split
    next quotient divided => exact (mem_point _ _).mpr (eq_of_divPoints divided).symm
    next => exact mem_full fits
  next =>
    dsimp only
    split
    · exact mem_full fits
    next corners mapped =>
      cases around : around? ((if right.contains 0 then [0] else []) ++ corners.flatten) with
      | none => exact mem_full fits
      | some hull =>
          rw [Option.getD_some]
          by_cases zero : second = 0
          · subst zero
            rw [(contains_eq_true_iff right 0).mpr inRight] at around
            exact mem_around around (by simp)
          · obtain ⟨part, isPart, inPart, apart⟩ := exists_part inRight zero fitsSecond
            obtain ⟨quotients, inCorners, found⟩ := exists_mem_of_mapM mapped isPart
            obtain ⟨⟨x, xEdge, y, yEdge, lower⟩, u, uEdge, v, vEdge, upper⟩ :=
              exists_quotients inLeft inPart apart
            have collected {quotient : Int} (member : quotient ∈ quotients) :
                quotient ∈ (if right.contains 0 then [0] else []) ++ corners.flatten :=
              List.mem_append_right _ (List.mem_flatten.mpr ⟨quotients, inCorners, member⟩)
            exact mem_around_of_between around
              (collected (mem_cornerQuotients found xEdge yEdge)) lower
              (collected (mem_cornerQuotients found uEdge vEdge)) upper

/-! ## Remainders -/

theorem eq_of_modPoints {first second remainder : Int}
    (divided : modPoints? first second = some remainder) : remainder = first % second := by
  unfold modPoints? at divided
  split at divided
  next left right leftWord rightWord =>
    rw [Word.ofInt?_eq_some_iff] at leftWord rightWord
    obtain ⟨word, found, rfl⟩ := Option.map_eq_some_iff.mp divided
    rw [Word.mod?_eq_some_of found, leftWord, rightWord]
  next =>
    simp only [Wide.mod?] at divided
    split at divided <;> simp_all

private theorem emod_mem_remainders {left right : Interval} {first second : Int}
    (inLeft : first ∈ left) (inRight : second ∈ right) (nonzero : second ≠ 0)
    (fits : Wide.Fits (first % second)) : first % second ∈ remainders left right := by
  have nonneg := Int.emod_nonneg first nonzero
  have less := Int.emod_lt first nonzero
  rw [mem_iff] at inLeft inRight
  have smallest : (if 0 < right.lo then right.lo.natAbs
      else if right.hi < 0 then right.hi.natAbs else 1) ≤ second.natAbs := by
    split
    · omega
    · split <;> omega
  simp only [remainders]
  generalize (if 0 < right.lo then right.lo.natAbs
    else if right.hi < 0 then right.hi.natAbs else 1) = bound at smallest ⊢
  split
  next small =>
    -- The dividend is below every divisor, so it is its own remainder.
    have same : first % second = first := by
      rcases Int.natAbs_eq second with equal | equal <;> rw [equal]
      · exact Int.emod_eq_of_lt (by omega) (by omega)
      · rw [Int.emod_neg]
        exact Int.emod_eq_of_lt (by omega) (by omega)
    rw [same]
    exact inLeft
  next =>
    have upper := fits.2
    simp only [mem_iff]
    omega

theorem emod_mem_mod {left right : Interval} {first second : Int} (inLeft : first ∈ left)
    (inRight : second ∈ right) (fits : Wide.Fits (first % second)) :
    first % second ∈ left.mod right := by
  unfold mod
  split
  next points =>
    rw [Bool.and_eq_true] at points
    rw [mem_of_isPoint points.1 inLeft, mem_of_isPoint points.2 inRight]
    split
    next remainder divided => exact (mem_point _ _).mpr (eq_of_modPoints divided).symm
    next => exact mem_full fits
  next =>
    split
    next zero =>
      subst zero
      rw [mem_point] at inRight
      simpa [inRight] using inLeft
    next notZero =>
      by_cases zero : second = 0
      · subst zero
        rw [(contains_eq_true_iff right 0).mpr inRight, if_pos rfl, Int.emod_zero]
        exact mem_hull_left _ inLeft
      · have member := emod_mem_remainders inLeft inRight zero fits
        split
        · exact mem_hull_right _ member
        · exact member

/-! ## Exact division of bounds -/

/-- The bounds enclose exactly the numbers whose product lies in the target. -/
theorem mem_quotients_iff {target : Interval} {factor lo hi : Int}
    (found : target.quotients? factor = some (lo, hi)) (value : Int) :
    lo ≤ value ∧ value ≤ hi ↔ value * factor ∈ target := by
  unfold quotients? at found
  split at found
  · simp at found
  next usable =>
    rw [mem_iff]
    split at found
    next positive =>
      simp only [Option.some.injEq, Prod.mk.injEq] at found
      obtain ⟨rfl, rfl⟩ := found
      rw [Int.fdiv_eq_ediv_of_nonneg _ (Int.le_of_lt positive),
        Int.fdiv_eq_ediv_of_nonneg _ (Int.le_of_lt positive),
        Int.le_ediv_iff_mul_le positive]
      have lower : -value ≤ -target.lo / factor ↔ -value * factor ≤ -target.lo :=
        Int.le_ediv_iff_mul_le positive
      rw [Int.neg_mul] at lower
      omega
    next notPositive =>
      have positive : 0 < -factor := by omega
      simp only [Option.some.injEq, Prod.mk.injEq] at found
      obtain ⟨rfl, rfl⟩ := found
      rw [← Int.neg_fdiv_neg target.lo factor, ← Int.neg_fdiv_neg (-target.hi) factor,
        Int.fdiv_eq_ediv_of_nonneg _ (Int.le_of_lt positive),
        Int.fdiv_eq_ediv_of_nonneg _ (Int.le_of_lt positive), Int.neg_neg,
        Int.le_ediv_iff_mul_le positive]
      have upper : -value ≤ target.hi / -factor ↔ -value * -factor ≤ target.hi :=
        Int.le_ediv_iff_mul_le positive
      rw [Int.neg_mul_neg] at upper
      rw [Int.mul_neg]
      omega

end Interval

/-! ## Comparisons -/

namespace Comparison

def holds : Comparison → Int → Int → Bool
  | .eq, first, second => first = second
  | .neq, first, second => first ≠ second
  | .lt, first, second => first < second
  | .leq, first, second => first ≤ second

/-- A comparison that is decided for two intervals has that outcome for all
their members. -/
theorem holds_of_decided (comparison : Comparison) {left right : Interval}
    {first second : Int} (inLeft : first ∈ left) (inRight : second ∈ right) :
    ((comparison.decided left right).1 = true → comparison.holds first second = true) ∧
      ((comparison.decided left right).2 = true → comparison.holds first second = false) := by
  rw [Interval.mem_iff] at inLeft inRight
  have same (isPoint : left.isPoint = true) (equal : left = right) : first = second := by
    subst equal
    simp only [Interval.isPoint, decide_eq_true_eq] at isPoint
    omega
  cases comparison <;> simp only [decided, holds, Bool.and_eq_true, Bool.or_eq_true,
    decide_eq_true_eq, decide_eq_false_iff_not] <;> grind

theorem holds_mem_evaluate (comparison : Comparison) {left right : Interval}
    {first second : Int} (inLeft : first ∈ left) (inRight : second ∈ right) :
    (comparison.holds first second).toInt ∈ comparison.evaluate left right := by
  have outcome := comparison.holds_of_decided inLeft inRight
  unfold evaluate
  split
  next certain => simp [outcome.1 (by simp [certain]), Interval.true]
  next impossible => simp [outcome.2 (by simp [impossible]), Interval.false]
  next => cases comparison.holds first second <;> simp [Interval.mem_iff, Interval.undecided]

end Comparison

end SymbolicSafety
