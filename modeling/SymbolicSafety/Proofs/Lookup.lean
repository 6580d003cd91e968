import SymbolicSafety.Foundation.SortedMap

namespace SymbolicSafety

/-! What a sorted map looks up after each operation that builds one. All later
proofs speak about maps through `get?` and about sets through their members. -/

namespace SortedMap

variable {κ : Type u} {α : Type v} [Ord κ]

@[simp] theorem get?_empty (key : κ) : (empty : SortedMap κ α).get? key = none := rfl

@[simp] theorem keys_empty : (empty : SortedMap κ α).keys = [] := rfl

variable [Std.LawfulEqOrd κ]

private theorem find_place (entries : List (κ × α)) (key other : κ) (value : α) :
    find other (place key value entries) =
      if compare other key = .eq then some value else find other entries := by
  induction entries with
  | nil => simp [place, find]
  | cons head rest induction =>
      obtain ⟨held, kept⟩ := head
      simp only [place]
      split
      next less => simp only [find]
      next equal =>
        have same : key = held := Std.LawfulEqOrd.eq_of_compare equal
        subst same
        by_cases found : compare other key = .eq <;> simp [find, found]
      next greater =>
        simp only [find, induction]
        by_cases atHeld : compare other held = .eq
        · have same : other = held := Std.LawfulEqOrd.eq_of_compare atHeld
          subst same
          have different : compare other key ≠ .eq := by
            intro equal
            rw [Std.LawfulEqOrd.eq_of_compare equal] at greater
            simp [Std.ReflOrd.compare_self] at greater
          simp [different]
        · simp [atHeld]

private theorem find_eq_some_iff {entries : List (κ × α)}
    (ascending : entries.Pairwise fun left right => compare left.1 right.1 = .lt)
    (key : κ) (value : α) : find key entries = some value ↔ (key, value) ∈ entries := by
  induction entries with
  | nil => simp [find]
  | cons head rest induction =>
      obtain ⟨held, kept⟩ := head
      obtain ⟨below, tail⟩ := List.pairwise_cons.mp ascending
      simp only [find, List.mem_cons, Prod.mk.injEq]
      by_cases atHeld : compare key held = .eq
      · have same : key = held := Std.LawfulEqOrd.eq_of_compare atHeld
        subst same
        have absent : (key, value) ∉ rest := by
          intro member
          have less := below _ member
          simp [Std.ReflOrd.compare_self] at less
        simp [Std.ReflOrd.compare_self, absent, eq_comm]
      · have different : key ≠ held := by
          rintro rfl
          exact atHeld Std.ReflOrd.compare_self
        simp [atHeld, different, induction tail]

theorem get?_eq_some_iff (map : SortedMap κ α) (key : κ) (value : α) :
    map.get? key = some value ↔ (key, value) ∈ map.entries :=
  find_eq_some_iff map.ascending key value

theorem mem_keys_iff (map : SortedMap κ α) (key : κ) :
    key ∈ map.keys ↔ ∃ value, map.get? key = some value := by
  simp [keys, get?_eq_some_iff]

theorem get?_eq_none_iff (map : SortedMap κ α) (key : κ) :
    map.get? key = none ↔ key ∉ map.keys := by
  rw [mem_keys_iff]
  cases map.get? key <;> simp

theorem contains_iff (map : SortedMap κ α) (key : κ) :
    map.contains key = true ↔ key ∈ map.keys := by
  rw [mem_keys_iff, contains, Option.isSome_iff_exists]

theorem get?_filter (map : SortedMap κ α) (keep : κ → α → Bool) (key : κ) :
    (map.filter keep).get? key = (map.get? key).filter (keep key) := by
  apply Option.ext
  intro value
  rw [get?_eq_some_iff, Option.filter_eq_some_iff, get?_eq_some_iff]
  simp [filter]

variable [Std.TransOrd κ] [DecidableEq κ]

theorem get?_insert (map : SortedMap κ α) (key other : κ) (value : α) :
    (map.insert key value).get? other = if other = key then some value else map.get? other := by
  simp only [get?, insert, find_place, Std.LawfulEqOrd.compare_eq_iff_eq]

/-! ## Maps from lists -/

private theorem get?_foldl_insert_of_not_mem (pairs : List (κ × α))
    (map : SortedMap κ α) (key : κ) (absent : key ∉ pairs.map Prod.fst) :
    (pairs.foldl (fun map pair => map.insert pair.1 pair.2) map).get? key = map.get? key := by
  induction pairs generalizing map with
  | nil => rfl
  | cons head rest induction =>
      simp only [List.map_cons, List.mem_cons, not_or] at absent
      rw [List.foldl_cons, induction _ absent.2, get?_insert, if_neg absent.1]

private theorem get?_foldl_insert_of_mem {pairs : List (κ × α)} {key : κ}
    (map : SortedMap κ α) (member : key ∈ pairs.map Prod.fst) :
    ∃ value, (key, value) ∈ pairs ∧
      (pairs.foldl (fun map pair => map.insert pair.1 pair.2) map).get? key = some value := by
  induction pairs generalizing map with
  | nil => simp at member
  | cons head rest induction =>
      obtain ⟨held, kept⟩ := head
      rw [List.foldl_cons]
      by_cases later : key ∈ rest.map Prod.fst
      · obtain ⟨value, inRest, found⟩ := induction (map.insert held kept) later
        exact ⟨value, List.mem_cons_of_mem _ inRest, found⟩
      · rw [get?_foldl_insert_of_not_mem rest _ key later, get?_insert]
        have same : key = held := by
          simpa [later] using member
        subst same
        exact ⟨kept, List.mem_cons_self, if_pos rfl⟩

theorem mem_of_get?_ofList {pairs : List (κ × α)} {key : κ} {value : α}
    (found : (ofList pairs).get? key = some value) : (key, value) ∈ pairs := by
  by_cases member : key ∈ pairs.map Prod.fst
  · obtain ⟨other, inPairs, held⟩ := get?_foldl_insert_of_mem empty member
    rw [ofList, held, Option.some.injEq] at found
    exact found ▸ inPairs
  · rw [ofList, get?_foldl_insert_of_not_mem pairs empty key member] at found
    simp at found

theorem exists_get?_ofList {pairs : List (κ × α)} {key : κ}
    (member : key ∈ pairs.map Prod.fst) :
    ∃ value, (key, value) ∈ pairs ∧ (ofList pairs).get? key = some value :=
  get?_foldl_insert_of_mem empty member

theorem get?_ofList_of_unique {pairs : List (κ × α)} {key : κ} {value : α}
    (member : (key, value) ∈ pairs)
    (unique : ∀ other, (key, other) ∈ pairs → other = value) :
    (ofList pairs).get? key = some value := by
  obtain ⟨other, inPairs, found⟩ :=
    exists_get?_ofList (List.mem_map.mpr ⟨(key, value), member, rfl⟩)
  rw [found, unique other inPairs]

theorem get?_ofList_eq_none {pairs : List (κ × α)} {key : κ}
    (absent : key ∉ pairs.map Prod.fst) : (ofList pairs).get? key = none :=
  get?_foldl_insert_of_not_mem pairs empty key absent

theorem get?_ofList_map (keys : List κ) (value : κ → α) (key : κ) :
    (ofList (keys.map fun key => (key, value key))).get? key =
      if key ∈ keys then some (value key) else none := by
  by_cases member : key ∈ keys
  · rw [if_pos member]
    apply get?_ofList_of_unique
    · exact List.mem_map.mpr ⟨key, member, rfl⟩
    · intro other inPairs
      obtain ⟨held, -, equal⟩ := List.mem_map.mp inPairs
      simp only [Prod.mk.injEq] at equal
      rw [← equal.2, equal.1]
  · rw [if_neg member]
    apply get?_ofList_eq_none
    simpa using member

/-! ## Joining two maps -/

def glue (inFirst : κ → Bool) (first second : SortedMap κ α) : SortedMap κ α :=
  ofList ((first.filter fun key _ => inFirst key).entries ++
    (second.filter fun key _ => !inFirst key).entries)

omit [Std.TransOrd κ] [DecidableEq κ] in
private theorem mem_glue_iff (inFirst : κ → Bool) (first second : SortedMap κ α) (key : κ)
    (value : α) :
    (key, value) ∈ (first.filter fun key _ => inFirst key).entries ++
      (second.filter fun key _ => !inFirst key).entries ↔
    (if inFirst key then first.get? key else second.get? key) = some value := by
  rw [List.mem_append, ← get?_eq_some_iff, ← get?_eq_some_iff, get?_filter, get?_filter]
  cases inFirst key <;> simp

theorem get?_glue (inFirst : κ → Bool) (first second : SortedMap κ α) (key : κ) :
    (glue inFirst first second).get? key =
      if inFirst key then first.get? key else second.get? key := by
  cases held : (if inFirst key then first.get? key else second.get? key) with
  | some value =>
      refine get?_ofList_of_unique ((mem_glue_iff ..).mpr held) fun other member => ?_
      exact Option.some.inj (((mem_glue_iff ..).mp member).symm.trans held)
  | none =>
      refine get?_ofList_eq_none fun member => ?_
      obtain ⟨⟨key', value⟩, inEntries, rfl⟩ := List.mem_map.mp member
      simp [(mem_glue_iff ..).mp inEntries] at held

end SortedMap

namespace SortedSet

variable {κ : Type u} [Ord κ] [Std.TransOrd κ] [Std.LawfulEqOrd κ] [DecidableEq κ]

@[simp] theorem mem_keys_add (set : SortedSet κ) (member key : κ) :
    key ∈ (set.add member).keys ↔ key = member ∨ key ∈ set.keys := by
  rw [SortedMap.mem_keys_iff, SortedMap.mem_keys_iff]
  by_cases equal : key = member <;> simp [add, SortedMap.get?_insert, equal]

@[simp] theorem mem_keys_addAll (set : SortedSet κ) (members : List κ) (key : κ) :
    key ∈ (set.addAll members).keys ↔ key ∈ members ∨ key ∈ set.keys := by
  induction members generalizing set with
  | nil => simp [addAll]
  | cons head rest induction =>
      rw [addAll, List.foldl_cons]
      change key ∈ ((set.add head).addAll rest).keys ↔ _
      rw [induction, mem_keys_add, List.mem_cons]
      simp only [or_assoc, or_left_comm]

end SortedSet

end SymbolicSafety
