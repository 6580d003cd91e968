import SymbolicSafety.Proofs.Relocation

namespace SymbolicSafety

/-! The algebra of indexings. An indexing is the function that it looks up: what
it stores follows from the versions that it gives. The laws of the operations are
then the laws of versions, variable by variable. -/

namespace Indexing

variable {left right third sum difference total : Indexing}

/-! ## Equality -/

theorem eq_iff_get (left right : Indexing) :
    left = right ↔ ∀ var, left.get var = right.get var := by
  refine ⟨fun equal _ => equal ▸ rfl, fun same => ?_⟩
  obtain ⟨fresh, atLeft, atRight⟩ := exists_get_eq_default left right
  exact eq_of_get (by rw [← atLeft, ← atRight, same]) same

theorem eq_of_toNat_get (same : ∀ var, (left.get var).toNat = (right.get var).toNat) :
    left = right :=
  (eq_iff_get left right).mpr fun var => UInt32.toNat.inj (same var)

/-! ## Sums and differences -/

theorem add?_eq_some_iff : left.add? right = some sum ↔
    ∀ var, (sum.get var).toNat = (left.get var).toNat + (right.get var).toNat := by
  refine ⟨get_add, fun versions => ?_⟩
  obtain ⟨result, added⟩ : ∃ result, left.add? right = some result :=
    exists_add? fun var => versions var ▸ UInt32.toNat_lt _
  have same : result = sum := eq_of_toNat_get fun var => by rw [get_add added, versions]
  rw [added, same]

theorem add?_comm (left right : Indexing) : left.add? right = right.add? left := by
  apply Option.ext
  intro sum
  simp only [add?_eq_some_iff, Nat.add_comm]

private theorem bind_add?_eq_some_iff :
    (left.add? right).bind (·.add? third) = some total ↔ ∀ var, (total.get var).toNat =
      (left.get var).toNat + (right.get var).toNat + (third.get var).toNat := by
  simp only [Option.bind_eq_some_iff, add?_eq_some_iff]
  constructor
  · rintro ⟨sum, versions, versions'⟩ var
    rw [versions', versions]
  · intro versions
    obtain ⟨sum, added⟩ : ∃ sum, left.add? right = some sum := by
      apply exists_add?
      intro var
      refine Nat.lt_of_le_of_lt ?_ (total.get var).toNat_lt
      rw [versions]
      exact Nat.le_add_right _ _
    have first := get_add added
    exact ⟨sum, first, fun var => by rw [versions, first]⟩

theorem add?_assoc (left right third : Indexing) :
    (left.add? right).bind (·.add? third) = (right.add? third).bind (left.add? ·) := by
  apply Option.ext
  intro total
  have last : (right.add? third).bind (left.add? ·) = (right.add? third).bind (·.add? left) := by
    simp only [add?_comm left]
  rw [last, bind_add?_eq_some_iff, bind_add?_eq_some_iff]
  apply forall_congr'
  intro var
  omega

private theorem get_sub (subtracted : left.sub right = .ok difference) (var : Variable) :
    right.get var ≤ left.get var ∧ difference.get var = left.get var - right.get var := by
  simp only [sub] at subtracted
  split at subtracted
  · cases subtracted
  next defaults =>
    split at subtracted
    · cases subtracted
    next nothing =>
      obtain rfl := Except.ok.inj subtracted
      rw [get_normalized, SortedMap.get?_ofList_map]
      split
      next entered =>
        have enough := List.find?_eq_none.mp nothing var entered
        exact ⟨by simpa using enough, rfl⟩
      next absent =>
        simp only [entered, List.mem_append, not_or] at absent
        rw [get_of_not_entered absent.1, get_of_not_entered absent.2]
        exact ⟨UInt32.not_lt.mp defaults, rfl⟩

theorem exists_sub (below : ∀ var, right.get var ≤ left.get var) :
    ∃ difference, left.sub right = .ok difference := by
  obtain ⟨fresh, atLeft, atRight⟩ := exists_get_eq_default left right
  have defaults : ¬ left.default < right.default := by
    rw [← atLeft, ← atRight]
    exact UInt32.not_lt.mpr (below fresh)
  have nothing : (left.entered right).find? (fun var => left.get var < right.get var) = none := by
    apply List.find?_eq_none.mpr
    intro var _
    simpa using below var
  exact ⟨_, by rw [sub, if_neg defaults, nothing]⟩

theorem sub_eq_ok_iff : left.sub right = .ok difference ↔ difference.add? right = some left := by
  constructor
  · intro subtracted
    apply add?_eq_some_iff.mpr
    intro var
    obtain ⟨below, version⟩ := get_sub subtracted var
    rw [version, UInt32.toNat_sub_of_le _ _ below]
    exact (Nat.sub_add_cancel (UInt32.le_iff_toNat_le.mp below)).symm
  · intro added
    have versions := get_add added
    have below (var : Variable) : right.get var ≤ left.get var := by
      rw [UInt32.le_iff_toNat_le, versions]
      exact Nat.le_add_left _ _
    obtain ⟨result, subtracted⟩ := exists_sub below
    have same : result = difference := by
      apply eq_of_toNat_get
      intro var
      rw [(get_sub subtracted var).2, UInt32.toNat_sub_of_le _ _ (below var), versions]
      omega
    rw [subtracted, same]

theorem exists_sub_iff :
    (∃ difference, left.sub right = .ok difference) ↔ ∀ var, right.get var ≤ left.get var := by
  constructor
  · rintro ⟨difference, subtracted⟩ var
    exact (get_sub subtracted var).1
  · exact exists_sub

/-! ## Joins -/

theorem join_comm (left right : Indexing) : left.join right = right.join left := by
  apply eq_of_toNat_get
  intro var
  rw [get_join, get_join, toNat_max, toNat_max, Nat.max_comm]

theorem join_assoc (left right third : Indexing) :
    (left.join right).join third = left.join (right.join third) := by
  apply eq_of_toNat_get
  intro var
  simp only [get_join, toNat_max, Nat.max_assoc]

theorem join_self (indexing : Indexing) : indexing.join indexing = indexing := by
  apply eq_of_toNat_get
  intro var
  rw [get_join, toNat_max, Nat.max_self]

/-! ## All laws -/

/-- An indexing is determined by the versions that it gives to the variables,
entered or not, and every operation acts on these versions alone. -/
theorem determined_by_lookup (first second third : Indexing) :
    (first = second ↔ ∀ var, first.get var = second.get var) ∧
    (∀ index var, (all index).get var = index) ∧
    (∀ var other index,
      (first.set var index).get other = if other = var then index else first.get other) ∧
    (∀ var, (first.get var).toNat + 1 < UInt32.size → ∃ next, first.next? var = some next ∧
      ∀ other, (next.get other).toNat = (first.get other).toNat + if other = var then 1 else 0) ∧
    ((∀ var, (first.get var).toNat + (second.get var).toNat < UInt32.size) →
      ∃ sum, first.add? second = some sum ∧ sum.sub second = .ok first ∧
        ∀ var, (sum.get var).toNat = (first.get var).toNat + (second.get var).toNat) ∧
    (∀ var, (first.join second).get var = max (first.get var) (second.get var)) ∧
    ((∃ difference, first.sub second = .ok difference) ↔
      ∀ var, second.get var ≤ first.get var) ∧
    (∀ difference, first.sub second = .ok difference → difference.add? second = some first ∧
      ∀ var, (difference.get var).toNat = (first.get var).toNat - (second.get var).toNat) ∧
    first.add? second = second.add? first ∧
    (first.add? second).bind (·.add? third) = (second.add? third).bind (first.add? ·) ∧
    first.join second = second.join first ∧
    (first.join second).join third = first.join (second.join third) ∧
    first.join first = first := by
  refine ⟨eq_iff_get first second, get_all, get_set first, fun var fits => ?_, fun fits => ?_,
    get_join first second, exists_sub_iff, fun difference subtracted => ?_,
    add?_comm first second, add?_assoc first second third, join_comm first second,
    join_assoc first second third, join_self first⟩
  · obtain ⟨next, advanced⟩ := exists_next fits
    exact ⟨next, advanced, get_next advanced⟩
  · obtain ⟨sum, added⟩ := exists_add? fits
    exact ⟨sum, added, sub_eq_ok_iff.mpr added, get_add added⟩
  · have restored := sub_eq_ok_iff.mp subtracted
    refine ⟨restored, fun var => ?_⟩
    have versions := get_add restored var
    omega

end Indexing

end SymbolicSafety
