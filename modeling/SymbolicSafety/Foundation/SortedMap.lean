namespace SymbolicSafety

/-! Finite maps as association lists in ascending key order. The order is part
of the type, so a map is determined by what it looks up, and walking its
entries visits the keys from least to greatest. -/

/-- Entries with strictly ascending keys. -/
structure SortedMap (κ : Type u) (α : Type v) [Ord κ] where
  entries : List (κ × α)
  ascending : entries.Pairwise fun left right => compare left.1 right.1 = .lt

namespace SortedMap

variable {κ : Type u} {α : Type v} [Ord κ]

instance [DecidableEq κ] [DecidableEq α] : DecidableEq (SortedMap κ α) :=
  fun left right =>
    if equal : left.entries = right.entries then
      .isTrue (by cases left; cases right; simpa using equal)
    else
      .isFalse fun same => equal (same ▸ rfl)

def empty : SortedMap κ α := ⟨[], .nil⟩

instance : EmptyCollection (SortedMap κ α) := ⟨empty⟩

instance : Inhabited (SortedMap κ α) := ⟨empty⟩

def size (map : SortedMap κ α) : Nat := map.entries.length

def isEmpty (map : SortedMap κ α) : Bool := map.entries.isEmpty

def keys (map : SortedMap κ α) : List κ := map.entries.map Prod.fst

/-! ## Lookup -/

def find (key : κ) : List (κ × α) → Option α
  | [] => none
  | (other, value) :: rest => if compare key other = .eq then some value else find key rest

def get? (map : SortedMap κ α) (key : κ) : Option α := find key map.entries

def contains (map : SortedMap κ α) (key : κ) : Bool := (map.get? key).isSome

/-! ## Insertion -/

def place (key : κ) (value : α) : List (κ × α) → List (κ × α)
  | [] => [(key, value)]
  | (other, held) :: rest =>
      match compare key other with
      | .lt => (key, value) :: (other, held) :: rest
      | .eq => (key, value) :: rest
      | .gt => (other, held) :: place key value rest

private theorem mem_place {key : κ} {value : α} {entries : List (κ × α)} {entry : κ × α}
    (member : entry ∈ place key value entries) : entry = (key, value) ∨ entry ∈ entries := by
  induction entries with
  | nil => simpa [place] using member
  | cons head rest induction =>
      obtain ⟨other, held⟩ := head
      simp only [place] at member
      split at member
      · simpa using member
      · rcases List.mem_cons.mp member with equal | member
        · exact .inl equal
        · exact .inr (List.mem_cons_of_mem _ member)
      · rcases List.mem_cons.mp member with equal | member
        · exact .inr (equal ▸ List.mem_cons_self)
        · exact (induction member).imp id (List.mem_cons_of_mem _)

private theorem place_ascending [Std.TransOrd κ] (key : κ) (value : α) {entries : List (κ × α)}
    (ascending : entries.Pairwise fun left right => compare left.1 right.1 = .lt) :
    (place key value entries).Pairwise fun left right => compare left.1 right.1 = .lt := by
  induction entries with
  | nil => exact List.pairwise_singleton _ _
  | cons head rest induction =>
      obtain ⟨other, held⟩ := head
      obtain ⟨below, tail⟩ := List.pairwise_cons.mp ascending
      simp only [place]
      split
      next less =>
        refine List.pairwise_cons.mpr ⟨fun entry member => ?_, ascending⟩
        rcases List.mem_cons.mp member with equal | member
        · exact equal ▸ less
        · exact Std.TransCmp.lt_trans less (below entry member)
      next equal =>
        exact List.pairwise_cons.mpr
          ⟨fun entry member => Std.TransCmp.lt_of_eq_of_lt equal (below entry member), tail⟩
      next greater =>
        refine List.pairwise_cons.mpr ⟨fun entry member => ?_, induction tail⟩
        rcases mem_place member with equal | member
        · exact equal ▸ Std.OrientedCmp.lt_of_gt greater
        · exact below entry member

def insert [Std.TransOrd κ] (map : SortedMap κ α) (key : κ) (value : α) : SortedMap κ α :=
  ⟨place key value map.entries, place_ascending key value map.ascending⟩

def ofList [Std.TransOrd κ] (pairs : List (κ × α)) : SortedMap κ α :=
  pairs.foldl (fun map pair => map.insert pair.1 pair.2) empty

def filter (map : SortedMap κ α) (keep : κ → α → Bool) : SortedMap κ α :=
  ⟨map.entries.filter fun entry => keep entry.1 entry.2, map.ascending.filter _⟩

end SortedMap

/-! ## Sets

A set is a map that binds its members to nothing. -/

abbrev SortedSet (κ : Type u) [Ord κ] := SortedMap κ Unit

namespace SortedSet

variable {κ : Type u} [Ord κ] [Std.TransOrd κ]

def add (set : SortedSet κ) (member : κ) : SortedSet κ := SortedMap.insert set member ()

def addAll (set : SortedSet κ) (members : List κ) : SortedSet κ := members.foldl add set

end SortedSet

end SymbolicSafety
