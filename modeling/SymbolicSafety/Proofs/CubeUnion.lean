import SymbolicSafety.Proofs.IntervalArithmetic
import SymbolicSafety.Search.Cube

namespace SymbolicSafety

/-! Merging cubes keeps their union, and disjoint cubes stay disjoint. Neighbours
are only merged when together they fill the interval around both, and the order
in which they stand makes sure of that. -/

namespace Cube

def Contains (cube : Cube) (point : List Int) : Prop :=
  ∀ (dimension : Nat) (interval : Interval) (value : Int), cube[dimension]? = some interval →
    point[dimension]? = some value → value ∈ interval

def Covered (cubes : List Cube) (point : List Int) : Prop := ∃ cube ∈ cubes, cube.Contains point

theorem covered_cons_iff (cube : Cube) (cubes : List Cube) (point : List Int) :
    Covered (cube :: cubes) point ↔ cube.Contains point ∨ Covered cubes point := by
  simp [Covered]

/-- No point of that many dimensions lies in both cubes. -/
def Disjoint (dimensions : Nat) (left right : Cube) : Prop :=
  ∀ point : List Int, point.length = dimensions → ¬ (left.Contains point ∧ right.Contains point)

theorem Disjoint.symm {dimensions : Nat} {left right : Cube}
    (disjoint : Disjoint dimensions left right) : Disjoint dimensions right left :=
  fun point length both => disjoint point length both.symm

structure Fits (inputs : List Input) (cube : Cube) : Prop where
  length : cube.length = inputs.length
  within : ∀ (dimension : Nat) (input : Input) (interval : Interval),
    inputs[dimension]? = some input → cube[dimension]? = some interval →
      Wide.least ≤ input.domain.lo ∧ input.domain.lo ≤ interval.lo ∧
        interval.lo ≤ interval.hi ∧ interval.hi ≤ input.domain.hi

/-! ## Two neighbours -/

theorem along_of_getElem? {cube : Cube} {dimension : Nat} {interval : Interval}
    (found : cube[dimension]? = some interval) : cube.along dimension = interval := by
  simp [along, List.getD_eq_getElem?_getD, found]

theorem getElem?_eq_of_eraseIdx_eq {left right : Cube} {dimension : Nat}
    (same : left.eraseIdx dimension = right.eraseIdx dimension) {other : Nat}
    (different : other ≠ dimension) : left[other]? = right[other]? := by
  by_cases before : other < dimension
  · have equal := congrArg (·[other]?) same
    simpa [List.getElem?_eraseIdx, before] using equal
  · have equal := congrArg (·[other - 1]?) same
    have after : ¬ other - 1 < dimension := by omega
    have position : other - 1 + 1 = other := by omega
    simpa [List.getElem?_eraseIdx, after, position] using equal

private theorem mem_hull_iff {left right : Interval} (ordered : left.lo ≤ right.lo)
    (touching : right.lo ≤ left.hi + 1) (value : Int) :
    value ∈ left.hull right ↔ value ∈ left ∨ value ∈ right := by
  simp only [Interval.mem_iff, Interval.hull]
  omega

private def ContainsElsewhere (cube : Cube) (dimension : Nat) (point : List Int) : Prop :=
  ∀ (other : Nat) (interval : Interval) (value : Int), other ≠ dimension →
    cube[other]? = some interval → point[other]? = some value → value ∈ interval

private theorem containsElsewhere_congr {left right : Cube} {dimension : Nat}
    (same : ∀ other, other ≠ dimension → left[other]? = right[other]?) (point : List Int) :
    ContainsElsewhere left dimension point ↔ ContainsElsewhere right dimension point := by
  constructor
  · intro contains other interval value different bound held
    exact contains other interval value different ((same other different).trans bound) held
  · intro contains other interval value different bound held
    exact contains other interval value different ((same other different).symm.trans bound) held

private theorem contains_iff_along (cube : Cube) (point : List Int) {dimension : Nat}
    (exists' : dimension < cube.length) :
    cube.Contains point ↔ ContainsElsewhere cube dimension point ∧
      ∀ value, point[dimension]? = some value → value ∈ cube.along dimension := by
  have found : cube[dimension]? = some cube[dimension] := by simp [exists']
  constructor
  · intro contains
    refine ⟨fun other interval value _ bound held => contains other interval value bound held,
      fun value held => ?_⟩
    rw [along_of_getElem? found]
    exact contains dimension _ value found held
  · rintro ⟨others, here⟩ other interval value bound held
    by_cases same : other = dimension
    · subst same
      rw [along_of_getElem? bound] at here
      exact here value held
    · exact others other interval value same bound held

private theorem contains_set_iff {left right : Cube} {dimension : Nat} {merged : Interval}
    (sameLength : left.length = right.length)
    (same : left.eraseIdx dimension = right.eraseIdx dimension)
    (union : dimension < left.length → ∀ value, value ∈ merged ↔
      value ∈ left.along dimension ∨ value ∈ right.along dimension) (point : List Int) :
    Contains (left.set dimension merged) point ↔ left.Contains point ∨ right.Contains point := by
  by_cases exists' : dimension < left.length
  · have exists'' : dimension < (left.set dimension merged).length := by simpa using exists'
    have here : Cube.along (left.set dimension merged) dimension = merged :=
      along_of_getElem? (by simp [exists'])
    rw [contains_iff_along _ _ exists'', contains_iff_along left _ exists',
      contains_iff_along right _ (sameLength ▸ exists'), here,
      containsElsewhere_congr fun other different => List.getElem?_set_ne (Ne.symm different),
      containsElsewhere_congr fun other different => getElem?_eq_of_eraseIdx_eq same different,
      ← and_or_left]
    cases point[dimension]? with
    | none => simp
    | some value => simp [union exists']
  · have unchanged : left.set dimension merged = left := List.set_eq_of_length_le (by omega)
    rw [List.eraseIdx_of_length_le (by omega), List.eraseIdx_of_length_le (by omega)] at same
    rw [unchanged, same, or_self]

/-! ## Sorted cubes -/

def Before (dimension : Nat) (left right : Cube) : Prop :=
  left.eraseIdx dimension = right.eraseIdx dimension →
    (left.along dimension).lo ≤ (right.along dimension).lo

private theorem compare_append_left (common left right : List Int) :
    compare (common ++ left) (common ++ right) = compare left right := by
  induction common with
  | nil => rfl
  | cons head rest induction =>
      rw [List.cons_append, List.cons_append, List.compare_cons_cons, induction,
        Std.ReflOrd.compare_self]
      rfl

theorem before_of_compare {dimension : Nat} {left right : Cube}
    (ordered : (compare (left.key dimension) (right.key dimension)).isLE = true) :
    Before dimension left right := by
  intro same
  rw [key, key, same, List.flatMap_append, List.flatMap_append, compare_append_left] at ordered
  simp only [List.flatMap_cons, List.flatMap_nil, List.append_nil,
    List.compare_cons_cons] at ordered
  have first : (compare (left.along dimension).lo (right.along dimension).lo).isLE = true := by
    cases compared : compare (left.along dimension).lo (right.along dimension).lo <;>
      simp_all
  exact Int.isLE_compare.mp first

theorem perm_sortedAlong (dimension : Nat) (cubes : List Cube) :
    (sortedAlong dimension cubes).Perm cubes :=
  List.mergeSort_perm _ _

theorem pairwise_sortedAlong (dimension : Nat) (cubes : List Cube) :
    (sortedAlong dimension cubes).Pairwise fun left right =>
      (compare (left.key dimension) (right.key dimension)).isLE = true := by
  refine List.pairwise_mergeSort ?_ ?_ cubes
  · intro first second third
    exact Std.TransCmp.isLE_trans
  · intro first second
    have swapped : compare (second.key dimension) (first.key dimension) =
        (compare (first.key dimension) (second.key dimension)).swap := Std.OrientedCmp.eq_swap
    rw [swapped]
    cases compare (first.key dimension) (second.key dimension) <;> rfl

/-! ## Merging -/

section Merging

variable {inputs : List Input} {dimension : Nat}

private theorem Fits.along {cube : Cube} (fits : Fits inputs cube)
    (exists' : dimension < cube.length) {input : Input}
    (held : inputs[dimension]? = some input) :
    Wide.least ≤ input.domain.lo ∧ input.domain.lo ≤ (cube.along dimension).lo ∧
      (cube.along dimension).lo ≤ (cube.along dimension).hi ∧
      (cube.along dimension).hi ≤ input.domain.hi := by
  have found : cube[dimension]? = some cube[dimension] := by simp [exists']
  rw [along_of_getElem? found]
  exact fits.within dimension input _ held found

private theorem Fits.merge {cube next : Cube} (cubeFits : Fits inputs cube)
    (nextFits : Fits inputs next) :
    Fits inputs (cube.set dimension ((cube.along dimension).hull (next.along dimension))) where
  length := by simpa using cubeFits.length
  within := by
    intro other input interval held found
    by_cases here : other = dimension
    · subst here
      have exists' : other < cube.length := by
        simpa using (List.getElem?_eq_some_iff.mp found).1
      have cubeBounds := cubeFits.along exists' held
      have nextBounds := nextFits.along
        (cubeFits.length.trans nextFits.length.symm ▸ exists') held
      simp only [List.getElem?_set_self exists', Option.some.injEq] at found
      subst found
      simp only [Interval.hull]
      omega
    · rw [List.getElem?_set_ne (Ne.symm here)] at found
      exact cubeFits.within other input interval held found

private theorem contains_merge_iff {cube next : Cube} (before : Before dimension cube next)
    (cubeFits : Fits inputs cube) (nextFits : Fits inputs next)
    (same : cube.eraseIdx dimension = next.eraseIdx dimension)
    (touching : (next.along dimension).lo ≤ Wide.add (cube.along dimension).hi 1)
    (point : List Int) :
    Contains (cube.set dimension ((cube.along dimension).hull (next.along dimension))) point ↔
      cube.Contains point ∨ next.Contains point := by
  have sameLength : cube.length = next.length := cubeFits.length.trans nextFits.length.symm
  refine contains_set_iff sameLength same (fun exists' => mem_hull_iff (before same) ?_) point
  have bounds := cubeFits.along exists' (List.getElem?_eq_getElem (cubeFits.length ▸ exists'))
  simp only [Wide.add, Wide.saturate] at touching
  split at touching <;> omega

private theorem Before.merge {cube next later : Cube}
    (before : Before dimension cube later) :
    Before dimension (cube.set dimension ((cube.along dimension).hull (next.along dimension)))
      later := by
  intro same
  rw [List.eraseIdx_set_eq] at same
  have ordered := before same
  by_cases exists' : dimension < cube.length
  · rw [along_of_getElem? (List.getElem?_set_self exists')]
    simp only [Interval.hull]
    omega
  · rwa [List.set_eq_of_length_le (Nat.le_of_not_lt exists')]

/-- Cubes stand for the same points and fit the same inputs as the ones they
were merged from, and are as disjoint. -/
structure Merges (inputs : List Input) (cubes merged : List Cube) : Prop where
  fits : ∀ cube ∈ merged, Fits inputs cube
  covered : ∀ point, Covered merged point ↔ Covered cubes point
  disjoint : cubes.Pairwise (Disjoint inputs.length) → merged.Pairwise (Disjoint inputs.length)

private theorem Merges.refl {cubes : List Cube} (fits : ∀ cube ∈ cubes, Fits inputs cube) :
    Merges inputs cubes cubes :=
  ⟨fits, fun _ => Iff.rfl, id⟩

private theorem Merges.trans {cubes swept merged : List Cube} (first : Merges inputs cubes swept)
    (second : Merges inputs swept merged) : Merges inputs cubes merged :=
  ⟨second.fits, fun point => (second.covered point).trans (first.covered point),
    fun disjoint => second.disjoint (first.disjoint disjoint)⟩

private theorem disjoint_of_covered {dimensions : Nat} {cube : Cube} {cubes merged : List Cube}
    (disjoint : ∀ other ∈ cubes, Disjoint dimensions cube other)
    (covered : ∀ point, Covered merged point → Covered cubes point) :
    ∀ other ∈ merged, Disjoint dimensions cube other := by
  intro other member point length both
  obtain ⟨cause, inCubes, contains⟩ := covered point ⟨other, member, both.2⟩
  exact disjoint cause inCubes point length ⟨both.1, contains⟩

private theorem mergeNeighbours_merges (cubes : List Cube)
    (sorted : cubes.Pairwise (Before dimension)) (fits : ∀ cube ∈ cubes, Fits inputs cube) :
    Merges inputs cubes (mergeNeighbours dimension cubes) := by
  fun_induction mergeNeighbours dimension cubes with
  | case1 => exact .refl fits
  | case2 cube => exact .refl fits
  | case3 cube next rest touches merged induction =>
      obtain ⟨same, touching⟩ := touches
      simp only [List.pairwise_cons, List.mem_cons, forall_eq_or_imp] at sorted
      obtain ⟨⟨before, beforeRest⟩, -, sortedRest⟩ := sorted
      simp only [List.mem_cons, forall_eq_or_imp] at fits
      obtain ⟨cubeFits, nextFits, restFits⟩ := fits
      have either := contains_merge_iff before cubeFits nextFits same touching
      have one : Merges inputs (cube :: next :: rest) (cube.set dimension merged :: rest) := by
        refine ⟨?_, fun point => ?_, fun disjoint => ?_⟩
        · simp only [List.mem_cons, forall_eq_or_imp]
          exact ⟨cubeFits.merge nextFits, restFits⟩
        · simp only [covered_cons_iff, merged, either, or_assoc]
        · simp only [List.pairwise_cons, List.mem_cons, forall_eq_or_imp] at disjoint ⊢
          obtain ⟨⟨-, fromCube⟩, fromNext, others⟩ := disjoint
          refine ⟨fun later member point length both => ?_, others⟩
          rcases (either point).mp both.1 with inCube | inNext
          · exact fromCube later member point length ⟨inCube, both.2⟩
          · exact fromNext later member point length ⟨inNext, both.2⟩
      refine one.trans (induction ?_ one.fits)
      exact List.pairwise_cons.mpr
        ⟨fun later member => (beforeRest later member).merge, sortedRest⟩
  | case4 cube next rest apart induction =>
      have others := induction (List.pairwise_cons.mp sorted).2
        (fun later member => fits later (List.mem_cons_of_mem _ member))
      refine ⟨?_, fun point => ?_, fun disjoint => ?_⟩
      · simp only [List.mem_cons, forall_eq_or_imp]
        exact ⟨fits cube List.mem_cons_self, others.fits⟩
      · rw [covered_cons_iff, others.covered point, covered_cons_iff cube]
      · rw [List.pairwise_cons] at disjoint ⊢
        exact ⟨disjoint_of_covered disjoint.1 fun point => (others.covered point).mp,
          others.disjoint disjoint.2⟩

private theorem mergeAlong_merges (dimension : Nat) {cubes : List Cube}
    (fits : ∀ cube ∈ cubes, Fits inputs cube) :
    Merges inputs cubes (mergeAlong dimension cubes) := by
  have permuted := perm_sortedAlong dimension cubes
  have sorted : Merges inputs cubes (sortedAlong dimension cubes) :=
    ⟨fun cube member => fits cube (permuted.mem_iff.mp member),
      fun point => by simp only [Covered, permuted.mem_iff],
      (permuted.pairwise_iff Disjoint.symm).mpr⟩
  have before := (pairwise_sortedAlong dimension cubes).imp before_of_compare
  exact sorted.trans (mergeNeighbours_merges _ before sorted.fits)

theorem sweep_merges {cubes : List Cube} (fits : ∀ cube ∈ cubes, Fits inputs cube) :
    Merges inputs cubes (sweep cubes) := by
  simp only [sweep]
  generalize (List.range _).reverse = dimensions
  induction dimensions generalizing cubes with
  | nil => exact .refl fits
  | cons dimension rest induction =>
      have one := mergeAlong_merges dimension fits
      exact one.trans (induction one.fits)

end Merging

theorem compress_merges {inputs : List Input} {cubes : List Cube}
    (fits : ∀ cube ∈ cubes, Fits inputs cube) : Merges inputs cubes (compress cubes) := by
  fun_induction compress cubes with
  | case1 cubes swept shorter induction =>
      have one := sweep_merges fits
      exact one.trans (induction one.fits)
  | case2 cubes swept settled => exact sweep_merges fits

end Cube

end SymbolicSafety
