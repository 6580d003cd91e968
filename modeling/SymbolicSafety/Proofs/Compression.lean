import SymbolicSafety.Proofs.CubeFormula

namespace SymbolicSafety

/-! Compressed cubes. Compression keeps the points of the cubes, stops only when
no two cubes can be merged along any dimension, and does not depend on the order
in which the cubes are given. -/

/-- The intervals have a common number, or one ends right before the other. -/
def Interval.Touches (left right : Interval) : Prop :=
  (∃ value, value ∈ left ∧ value ∈ right) ∨ left.hi + 1 = right.lo ∨ right.hi + 1 = left.lo

theorem Interval.Touches.symm {left right : Interval} (touches : left.Touches right) :
    right.Touches left := by
  rcases touches with ⟨value, inLeft, inRight⟩ | before | after
  · exact .inl ⟨value, inRight, inLeft⟩
  · exact .inr (.inr before)
  · exact .inr (.inl after)

theorem Interval.Touches.lo_le {left right : Interval} (touches : left.Touches right)
    (leftOrdered : left.lo ≤ left.hi) (rightOrdered : right.lo ≤ right.hi) :
    right.lo ≤ left.hi + 1 := by
  rcases touches with ⟨value, inLeft, inRight⟩ | before | after
  · rw [mem_iff] at inLeft inRight
    omega
  · omega
  · omega

namespace Cube

variable {dimensions dimension : Nat} {cubes : List Cube}

/-- A cube of that many dimensions, with a non-empty interval of the wide range
in each of them. -/
structure Regular (dimensions : Nat) (cube : Cube) : Prop where
  length : cube.length = dimensions
  within : ∀ interval ∈ cube, Wide.least ≤ interval.lo ∧ interval.lo ≤ interval.hi ∧
    interval.hi ≤ Wide.greatest

/-- The cubes agree in all dimensions but the given one, and their intervals
there overlap or are adjacent. -/
def Mergeable (dimension : Nat) (left right : Cube) : Prop :=
  (∀ other, other ≠ dimension → left[other]? = right[other]?) ∧
    (left.along dimension).Touches (right.along dimension)

def Apart (dimension : Nat) (left right : Cube) : Prop := ¬ Mergeable dimension left right

theorem Apart.symm {left right : Cube} (apart : Apart dimension left right) :
    Apart dimension right left :=
  fun mergeable => apart
    ⟨fun other different => (mergeable.1 other different).symm, mergeable.2.symm⟩

theorem Regular.along {cube : Cube} (regular : Regular dimensions cube)
    (exists' : dimension < dimensions) :
    Wide.least ≤ (cube.along dimension).lo ∧
      (cube.along dimension).lo ≤ (cube.along dimension).hi ∧
      (cube.along dimension).hi ≤ Wide.greatest := by
  have found := List.getElem?_eq_getElem (regular.length.symm ▸ exists')
  rw [along_of_getElem? found]
  exact regular.within _ (List.getElem_mem _)

/-! ## Regular cubes as parts of full domains -/

private def unrestricted (dimensions : Nat) : List Input :=
  List.replicate dimensions ⟨default, .full, 0⟩

private theorem fits_unrestricted_iff (cube : Cube) :
    Fits (unrestricted dimensions) cube ↔ Regular dimensions cube := by
  have whole {place : Nat} {input : Input}
      (held : (unrestricted dimensions)[place]? = some input) : input.domain = .full := by
    have same := List.eq_of_mem_replicate (List.mem_of_getElem? held)
    rw [same]
  constructor
  · intro fits
    have length : cube.length = dimensions := by simpa [unrestricted] using fits.length
    refine ⟨length, fun interval member => ?_⟩
    obtain ⟨place, found⟩ := List.mem_iff_getElem?.mp member
    have less := (List.getElem?_eq_some_iff.mp found).1
    have held : (unrestricted dimensions)[place]? = some ⟨default, .full, 0⟩ := by
      simp [unrestricted, length ▸ less]
    exact (fits.within place _ interval held found).2
  · intro regular
    refine ⟨by simpa [unrestricted] using regular.length, ?_⟩
    intro place input interval held found
    rw [whole held]
    exact ⟨Int.le_refl _, regular.within interval (List.mem_of_getElem? found)⟩

private theorem fits_unrestricted (regular : ∀ cube ∈ cubes, Regular dimensions cube) :
    ∀ cube ∈ cubes, Fits (unrestricted dimensions) cube :=
  fun cube member => (fits_unrestricted_iff cube).mpr (regular cube member)

/-! ## The order of keys -/

private def bounds (interval : Interval) : List Int := [interval.lo, interval.hi]

private theorem key_eq (dimension : Nat) (cube : Cube) : cube.key dimension =
    (cube.eraseIdx dimension).flatMap bounds ++ bounds (cube.along dimension) := by
  rw [key, List.flatMap_append]
  rfl

private theorem eq_of_bounds {left right : Interval} (same : bounds left = bounds right) :
    left = right := by
  cases left
  cases right
  simpa [bounds] using same

private theorem length_flatMap_bounds (cube : Cube) :
    (cube.flatMap bounds).length = 2 * cube.length := by
  induction cube with
  | nil => rfl
  | cons head rest induction =>
      rw [List.flatMap_cons, List.length_append, induction, List.length_cons]
      simp only [bounds, List.length_cons, List.length_nil]
      omega

private theorem eq_of_flatMap_bounds {left right : Cube}
    (same : left.flatMap bounds = right.flatMap bounds) : left = right := by
  induction left generalizing right with
  | nil =>
      cases right with
      | nil => rfl
      | cons head rest => simp [bounds] at same
  | cons head rest induction =>
      cases right with
      | nil => simp [bounds] at same
      | cons head' rest' =>
          obtain ⟨first, others⟩ := List.append_inj same rfl
          rw [eq_of_bounds first, induction others]

private theorem eq_of_between {common other : List Int} (length : common.length = other.length)
    {low middle high : List Int}
    (lower : (compare (common ++ low) (other ++ middle)).isLE = true)
    (upper : (compare (other ++ middle) (common ++ high)).isLE = true) : common = other := by
  induction common generalizing other with
  | nil => exact (List.eq_nil_of_length_eq_zero length.symm).symm
  | cons head rest induction =>
      cases other with
      | nil => simp at length
      | cons head' rest' =>
          simp only [List.cons_append, List.compare_cons_cons] at lower upper
          have first : head = head' := by
            apply Int.le_antisymm
            · exact Int.isLE_compare.mp (Ordering.isLE_left_of_isLE_then lower)
            · exact Int.isLE_compare.mp (Ordering.isLE_left_of_isLE_then upper)
          subst first
          rw [Std.ReflOrd.compare_self, Ordering.eq_then] at lower upper
          rw [induction (Nat.succ.inj length) lower upper]

private theorem between {cube next later : Cube} (length : cube.length = next.length)
    (lower : (compare (cube.key dimension) (next.key dimension)).isLE = true)
    (upper : (compare (next.key dimension) (later.key dimension)).isLE = true)
    (same : cube.eraseIdx dimension = later.eraseIdx dimension) :
    cube.eraseIdx dimension = next.eraseIdx dimension ∧
      (next.along dimension).lo ≤ (later.along dimension).lo := by
  have others : cube.eraseIdx dimension = next.eraseIdx dimension := by
    rw [key_eq, key_eq] at lower upper
    rw [← same] at upper
    refine eq_of_flatMap_bounds (eq_of_between ?_ lower upper)
    rw [length_flatMap_bounds, length_flatMap_bounds, List.length_eraseIdx,
      List.length_eraseIdx, length]
  exact ⟨others, before_of_compare upper (others.symm.trans same)⟩

/-! ## Nothing left to merge -/

theorem length_mergeNeighbours_le (dimension : Nat) (cubes : List Cube) :
    (mergeNeighbours dimension cubes).length ≤ cubes.length := by
  fun_induction mergeNeighbours dimension cubes with
  | case1 => exact Nat.le_refl _
  | case2 => exact Nat.le_refl _
  | case3 cube next rest touches merged induction => exact Nat.le_succ_of_le induction
  | case4 cube next rest apart induction => exact Nat.succ_le_succ induction

private theorem Mergeable.touching {left right : Cube} (mergeable : Mergeable dimension left right)
    (exists' : dimension < dimensions) (leftRegular : Regular dimensions left)
    (rightRegular : Regular dimensions right) :
    left.eraseIdx dimension = right.eraseIdx dimension ∧
      (right.along dimension).lo ≤ Wide.add (left.along dimension).hi 1 := by
  obtain ⟨agree, touches⟩ := mergeable
  constructor
  · apply List.ext_getElem?
    intro place
    rw [List.getElem?_eraseIdx, List.getElem?_eraseIdx]
    split
    · exact agree place (by omega)
    · exact agree (place + 1) (by omega)
  · have leftBounds := leftRegular.along exists'
    have rightBounds := rightRegular.along exists'
    have close := touches.lo_le leftBounds.2.1 rightBounds.2.1
    simp only [Wide.add, Wide.saturate]
    split
    · omega
    · split <;> omega

/-- Where nothing was merged, nothing can be: a cube that could be merged with a
later one could be merged with its neighbour, which stands between the two. -/
private theorem apart_of_length (exists' : dimension < dimensions)
    (regular : ∀ cube ∈ cubes, Regular dimensions cube)
    (sorted : cubes.Pairwise fun left right =>
      (compare (left.key dimension) (right.key dimension)).isLE = true)
    (same : (mergeNeighbours dimension cubes).length = cubes.length) :
    mergeNeighbours dimension cubes = cubes ∧ cubes.Pairwise (Apart dimension) := by
  fun_induction mergeNeighbours dimension cubes with
  | case1 => exact ⟨rfl, .nil⟩
  | case2 cube => exact ⟨rfl, List.pairwise_singleton _ _⟩
  | case3 cube next rest touches merged induction =>
      have shorter := length_mergeNeighbours_le dimension (cube.set dimension merged :: rest)
      rw [same] at shorter
      exact absurd shorter (Nat.not_succ_le_self _)
  | case4 cube next rest apart induction =>
      obtain ⟨cubeRegular, laterRegular⟩ := List.forall_mem_cons.mp regular
      obtain ⟨fromCube, sortedRest⟩ := List.pairwise_cons.mp sorted
      obtain ⟨unchanged, restApart⟩ :=
        induction laterRegular sortedRest (Nat.succ.inj same)
      refine ⟨by rw [unchanged], List.pairwise_cons.mpr ⟨?_, restApart⟩⟩
      intro later member mergeable
      obtain ⟨agree, touching⟩ :=
        mergeable.touching exists' cubeRegular (laterRegular later member)
      -- The later cube may be the neighbour itself.
      have upTo : (compare (next.key dimension) (later.key dimension)).isLE = true := by
        rcases List.mem_cons.mp member with rfl | member
        · rw [Std.ReflOrd.compare_self]
          rfl
        · exact (List.pairwise_cons.mp sortedRest).1 later member
      have nextRegular := laterRegular next List.mem_cons_self
      obtain ⟨agreeNext, lower⟩ :=
        between (cubeRegular.length.trans nextRegular.length.symm)
          (fromCube next List.mem_cons_self) upTo agree
      exact apart ⟨agreeNext, Int.le_trans lower touching⟩

theorem length_mergeAlong_le (dimension : Nat) (cubes : List Cube) :
    (mergeAlong dimension cubes).length ≤ cubes.length := by
  rw [← (perm_sortedAlong dimension cubes).length_eq]
  exact length_mergeNeighbours_le dimension _

private theorem mergeAlong_of_length (exists' : dimension < dimensions)
    (regular : ∀ cube ∈ cubes, Regular dimensions cube)
    (same : (mergeAlong dimension cubes).length = cubes.length) :
    (mergeAlong dimension cubes).Perm cubes ∧
      (mergeAlong dimension cubes).Pairwise (Apart dimension) := by
  have permuted := perm_sortedAlong dimension cubes
  obtain ⟨unchanged, apart⟩ := apart_of_length exists'
    (fun cube member => regular cube (permuted.mem_iff.mp member))
    (pairwise_sortedAlong dimension cubes) (same.trans permuted.length_eq.symm)
  rw [mergeAlong, unchanged]
  exact ⟨permuted, apart⟩

private def mergeAlongAll (along : List Nat) (cubes : List Cube) : List Cube :=
  along.foldl (fun cubes dimension => mergeAlong dimension cubes) cubes

private theorem length_mergeAlongAll_le (along : List Nat) (cubes : List Cube) :
    (mergeAlongAll along cubes).length ≤ cubes.length := by
  induction along generalizing cubes with
  | nil => exact Nat.le_refl _
  | cons dimension rest induction =>
      exact Nat.le_trans (induction _) (length_mergeAlong_le dimension cubes)

/-- Merging along later dimensions only permutes the cubes, so they stay apart
along the earlier ones. -/
private theorem mergeAlongAll_of_length {along : List Nat}
    (below : ∀ dimension ∈ along, dimension < dimensions)
    (regular : ∀ cube ∈ cubes, Regular dimensions cube)
    (same : (mergeAlongAll along cubes).length = cubes.length) :
    (mergeAlongAll along cubes).Perm cubes ∧
      ∀ dimension ∈ along, (mergeAlongAll along cubes).Pairwise (Apart dimension) := by
  induction along generalizing cubes with
  | nil => exact ⟨.refl _, by simp⟩
  | cons dimension rest induction =>
      obtain ⟨exists', belowRest⟩ := List.forall_mem_cons.mp below
      have shorter := length_mergeAlong_le dimension cubes
      have shorterRest : (mergeAlongAll (dimension :: rest) cubes).length ≤ _ :=
        length_mergeAlongAll_le rest (mergeAlong dimension cubes)
      obtain ⟨permuted, apart⟩ := mergeAlong_of_length exists' regular (by omega)
      obtain ⟨permutedRest, apartRest⟩ := induction belowRest
        (fun cube member => regular cube (permuted.mem_iff.mp member))
        (same.trans permuted.length_eq.symm)
      refine ⟨permutedRest.trans permuted, List.forall_mem_cons.mpr ⟨?_, apartRest⟩⟩
      exact (permutedRest.pairwise_iff Apart.symm).mpr apart

private theorem sweep_eq (regular : ∀ cube ∈ cubes, Regular dimensions cube) :
    sweep cubes = mergeAlongAll (List.range dimensions).reverse cubes := by
  cases cubes with
  | nil =>
      have empty (along : List Nat) : mergeAlongAll along [] = [] :=
        List.eq_nil_of_length_eq_zero (Nat.le_zero.mp (length_mergeAlongAll_le along []))
      rw [empty]
      rfl
  | cons cube rest =>
      have length := (regular cube List.mem_cons_self).length
      simp [sweep, mergeAlongAll, length]

theorem apart_compress (regular : ∀ cube ∈ cubes, Regular dimensions cube)
    (exists' : dimension < dimensions) : (compress cubes).Pairwise (Apart dimension) := by
  fun_induction compress cubes with
  | case1 cubes swept shorter induction =>
      refine induction fun cube member => (fits_unrestricted_iff cube).mp ?_
      exact (sweep_merges (fits_unrestricted regular)).fits cube member
  | case2 cubes swept settled =>
      -- The last sweep has merged nothing, so it was only a permutation.
      have unfolded : swept = mergeAlongAll (List.range dimensions).reverse cubes :=
        sweep_eq regular
      have shorter := length_mergeAlongAll_le (List.range dimensions).reverse cubes
      rw [unfolded] at settled ⊢
      have below : ∀ dimension ∈ (List.range dimensions).reverse, dimension < dimensions := by
        simp
      obtain ⟨-, apart⟩ := mergeAlongAll_of_length below regular (by omega)
      exact apart dimension (by simpa using exists')

private theorem not_mergeable_of_ne {left right : Cube} {place other : Nat}
    (apart : cubes.Pairwise (Apart dimension)) (different : place ≠ other)
    (first : cubes[place]? = some left) (second : cubes[other]? = some right) :
    ¬ Mergeable dimension left right := by
  obtain ⟨placeLess, rfl⟩ := List.getElem?_eq_some_iff.mp first
  obtain ⟨otherLess, rfl⟩ := List.getElem?_eq_some_iff.mp second
  rw [List.pairwise_iff_getElem] at apart
  rcases Nat.lt_or_gt_of_ne different with less | greater
  · exact apart place other placeLess otherLess less
  · exact (apart other place otherLess placeLess greater).symm

/-! ## The order of the cubes -/

private theorem eq_of_key_eq {left right : Cube} (leftRegular : Regular dimensions left)
    (rightRegular : Regular dimensions right) (exists' : dimension < dimensions)
    (same : left.key dimension = right.key dimension) : left = right := by
  rw [key_eq, key_eq] at same
  obtain ⟨others, here⟩ := List.append_inj' same rfl
  apply List.ext_getElem?
  intro place
  by_cases isHere : place = dimension
  · subst isHere
    have leftFound := List.getElem?_eq_getElem (leftRegular.length.symm ▸ exists')
    have rightFound := List.getElem?_eq_getElem (rightRegular.length.symm ▸ exists')
    rw [leftFound, rightFound, ← along_of_getElem? leftFound, ← along_of_getElem? rightFound,
      eq_of_bounds here]
  · exact getElem?_eq_of_eraseIdx_eq (eq_of_flatMap_bounds others) isHere

private theorem sortedAlong_eq_of_perm {permuted : List Cube} (perm : permuted.Perm cubes)
    (regular : ∀ cube ∈ cubes, Regular dimensions cube) (exists' : dimension < dimensions) :
    sortedAlong dimension permuted = sortedAlong dimension cubes := by
  have left := perm_sortedAlong dimension permuted
  have right := perm_sortedAlong dimension cubes
  refine List.Perm.eq_of_pairwise ?_ (pairwise_sortedAlong dimension permuted)
    (pairwise_sortedAlong dimension cubes) ((left.trans perm).trans right.symm)
  intro first second inPermuted inCubes upTo downTo
  have swapped : compare (second.key dimension) (first.key dimension) =
      (compare (first.key dimension) (second.key dimension)).swap := Std.OrientedCmp.eq_swap
  have equal : compare (first.key dimension) (second.key dimension) = .eq := by
    cases compared : compare (first.key dimension) (second.key dimension) <;> simp_all
  exact eq_of_key_eq (regular first (perm.mem_iff.mp (left.mem_iff.mp inPermuted)))
    (regular second (right.mem_iff.mp inCubes)) exists' (Std.LawfulEqOrd.eq_of_compare equal)

private theorem sweep_eq_of_perm {permuted : List Cube} (perm : permuted.Perm cubes)
    (regular : ∀ cube ∈ cubes, Regular dimensions cube) : sweep permuted = sweep cubes := by
  have permutedRegular : ∀ cube ∈ permuted, Regular dimensions cube :=
    fun cube member => regular cube (perm.mem_iff.mp member)
  rw [sweep_eq regular, sweep_eq permutedRegular]
  cases dimensions with
  | zero =>
      have trivial (cube : Cube) (cubeRegular : Regular 0 cube) : cube = [] :=
        List.eq_nil_of_length_eq_zero cubeRegular.length
      rw [List.eq_replicate_of_mem fun cube member => trivial cube (regular cube member),
        List.eq_replicate_of_mem fun cube member => trivial cube (permutedRegular cube member),
        perm.length_eq]
  | succ last =>
      rw [List.range_succ, List.reverse_append]
      simp only [mergeAlongAll, List.reverse_cons, List.reverse_nil, List.nil_append,
        List.cons_append, List.foldl_cons, mergeAlong]
      rw [sortedAlong_eq_of_perm perm regular (Nat.lt_succ_self last)]

theorem compress_eq_of_perm {permuted : List Cube} (perm : permuted.Perm cubes)
    (regular : ∀ cube ∈ cubes, Regular dimensions cube) : compress permuted = compress cubes := by
  unfold compress
  simp only [sweep_eq_of_perm perm regular, perm.length_eq]

/-! ## Compression -/

/-- The cube lies in the domains of the inputs. -/
def LiesIn (inputs : List Input) (cube : Cube) : Prop :=
  ∀ (dimension : Nat) (input : Input) (interval : Interval), inputs[dimension]? = some input →
    cube[dimension]? = some interval →
      input.domain.lo ≤ interval.lo ∧ interval.hi ≤ input.domain.hi

private theorem Regular.fits {inputs : List Input} {cube : Cube} {valuation : Valuation}
    (regular : Regular inputs.length cube) (liesIn : cube.LiesIn inputs)
    (grounded : Grounded valuation inputs) : Fits inputs cube := by
  refine ⟨regular.length, fun dimension input interval held found => ?_⟩
  have wide := Domain.least_le_of_interval (grounded input (List.mem_of_getElem? held)).1
  have within := regular.within interval (List.mem_of_getElem? found)
  have inside := liesIn dimension input interval held found
  exact ⟨wide, inside.1, within.2.1, inside.2⟩

private theorem toFormula_compress {inputs : List Input} {valuation : Valuation}
    (fits : ∀ cube ∈ cubes, Fits inputs cube) (grounded : Grounded valuation inputs) :
    ∃ holds, (toFormula inputs (compress cubes)).evaluate valuation = .ok (.bool holds) ∧
      (holds = true ↔ Covered cubes (pointOf valuation inputs)) := by
  have merges := compress_merges fits
  obtain ⟨holds, evaluated⟩ := toFormula_decided merges.fits grounded
  refine ⟨holds, (Formula.evaluate_eq_ok_iff _ _).mpr evaluated, ?_⟩
  rw [← merges.covered, ← toFormula_evaluatesTo_true_iff merges.fits grounded]
  constructor
  · rintro rfl
    exact evaluated
  · intro isTrue
    exact Value.bool.inj (evaluated.unique isTrue)

/-- Compression keeps the points and the disjointness of the cubes. It leaves
nothing to merge, and the order of the cubes does not matter. The formula of the
compressed cubes is true where one of the cubes is. -/
theorem compress_canonical (regular : ∀ cube ∈ cubes, Regular dimensions cube) :
    (∀ point : List Int, point.length = dimensions →
      (Covered (compress cubes) point ↔ Covered cubes point)) ∧
    (cubes.Pairwise (Disjoint dimensions) → (compress cubes).Pairwise (Disjoint dimensions)) ∧
    (∀ (place other : Nat) (left right : Cube), place ≠ other →
      (compress cubes)[place]? = some left → (compress cubes)[other]? = some right →
      ∀ dimension, dimension < dimensions → ¬ Mergeable dimension left right) ∧
    (∀ permuted : List Cube, permuted.Perm cubes → compress permuted = compress cubes) ∧
    (∀ (inputs : List Input) (valuation : Valuation), inputs.length = dimensions →
      (∀ cube ∈ cubes, cube.LiesIn inputs) → Grounded valuation inputs →
      ∃ holds, (toFormula inputs (compress cubes)).evaluate valuation = .ok (.bool holds) ∧
        (holds = true ↔ Covered cubes (pointOf valuation inputs))) := by
  have merges := compress_merges (fits_unrestricted regular)
  refine ⟨fun point _ => merges.covered point, ?_, ?_, ?_, ?_⟩
  · intro disjoint
    simpa [unrestricted] using merges.disjoint (by simpa [unrestricted] using disjoint)
  · intro place other left right different first second dimension exists'
    exact not_mergeable_of_ne (apart_compress regular exists') different first second
  · intro permuted perm
    exact compress_eq_of_perm perm regular
  · rintro inputs valuation rfl liesIn grounded
    refine toFormula_compress (fun cube member => ?_) grounded
    exact (regular cube member).fits (liesIn cube member) grounded

private def blocks : List Cube :=
  [[⟨0, 0⟩, ⟨0, 4⟩], [⟨1, 1⟩, ⟨0, 2⟩], [⟨1, 1⟩, ⟨3, 4⟩]]

private def column : Symbol := .current ⟨0, "x", .range 0 7⟩

private def row : Symbol := .current ⟨1, "y", .range 0 7⟩

private def axes : List Input := [⟨column, ⟨0, 7⟩, 0⟩, ⟨row, ⟨0, 7⟩, 1⟩]

private def corner : Valuation := .ofList [(column, .int 1), (row, .int 4)]

private theorem separated {left right left' right' : Interval}
    (apart : left.hi < left'.lo ∨ right.hi < right'.lo) :
    Disjoint 2 [left, right] [left', right'] := by
  rintro point length ⟨inFirst, inSecond⟩
  obtain ⟨x, y, rfl⟩ : ∃ x y, point = [x, y] := by
    obtain _ | ⟨x, _ | ⟨y, _ | _⟩⟩ := point <;> simp_all
  have inLeft := inFirst 0 left x rfl rfl
  have inRight := inFirst 1 right y rfl rfl
  have inLeft' := inSecond 0 left' x rfl rfl
  have inRight' := inSecond 1 right' y rfl rfl
  rw [Interval.mem_iff] at inLeft inRight inLeft' inRight'
  omega

theorem compress_canonical_blocks :
    (∀ cube ∈ blocks, Regular 2 cube) ∧ Covered (compress blocks) [1, 4] ∧
      (compress blocks).Pairwise (Disjoint 2) ∧
      (∀ left right, (compress blocks)[0]? = some left → (compress blocks)[1]? = some right →
        ¬ Mergeable 0 left right) ∧
      compress blocks.reverse = compress blocks ∧
      (toFormula axes (compress blocks)).evaluate corner = .ok (.bool true) := by
  have regular : ∀ cube ∈ blocks, Regular 2 cube := by
    simp only [blocks, List.forall_mem_cons, List.not_mem_nil, false_imp_iff, implies_true,
      and_true]
    exact ⟨⟨rfl, by decide⟩, ⟨rfl, by decide⟩, ⟨rfl, by decide⟩⟩
  have covered : Covered blocks [1, 4] := by
    refine ⟨[⟨1, 1⟩, ⟨3, 4⟩], by decide, ?_⟩
    rintro (_ | _ | dimension) interval number found atPoint
    · cases found
      cases atPoint
      rw [Interval.mem_iff]
      decide
    · cases found
      cases atPoint
      rw [Interval.mem_iff]
      decide
    · simp at found
  obtain ⟨covers, disjoint, irreducible, permutes, rendered⟩ := compress_canonical regular
  refine ⟨regular, (covers [1, 4] rfl).mpr covered, ?_, ?_, ?_, ?_⟩
  · refine disjoint ?_
    simp only [blocks, List.pairwise_cons, List.forall_mem_cons, List.not_mem_nil, false_imp_iff,
      implies_true, and_true, List.Pairwise.nil]
    exact ⟨⟨separated (by decide), separated (by decide)⟩, separated (by decide)⟩
  · intro left right first second
    exact irreducible 0 1 left right (by decide) first second 0 (by decide)
  · exact permutes blocks.reverse (List.reverse_perm blocks)
  · have liesIn : ∀ cube ∈ blocks, cube.LiesIn axes := by
      rintro cube member (_ | _ | dimension) input interval held found
      · cases held
        revert cube interval
        decide
      · cases held
        revert cube interval
        decide
      · simp [axes] at held
    have grounded : Grounded corner axes := by
      simp only [Grounded, axes, List.forall_mem_cons, List.not_mem_nil, false_imp_iff,
        implies_true, and_true]
      exact ⟨⟨rfl, .int 1, by decide +kernel, by decide⟩,
        ⟨rfl, .int 4, by decide +kernel, by decide⟩⟩
    obtain ⟨holds, evaluated, isTrue⟩ := rendered axes corner rfl liesIn grounded
    have atCorner : pointOf corner axes = [1, 4] := by decide +kernel
    rw [atCorner] at isTrue
    rw [evaluated, isTrue.mpr covered]

end Cube

end SymbolicSafety
