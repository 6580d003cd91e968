import SymbolicSafety.Proofs.Enclosure

namespace SymbolicSafety

/-! Propagation over the box of compiled formulas. It replaces intervals by
non-empty parts of them, also on the way to a conflict, and keeps every valuation
that makes the formulas true. A single point at which a formula is false is a
conflict from the start. -/

namespace Circuit

variable {circuit : Circuit} {box outer : Box} {valuation : Valuation}

theorem Encloses.of_inside (encloses : circuit.Encloses outer valuation)
    (inside : circuit.Inside box valuation.number) : circuit.Encloses box valuation := by
  intro index input held
  obtain ⟨value, bound, sort, -⟩ := encloses index input held
  have member := inside index input held
  rw [Valuation.number_of_get? bound] at member
  exact ⟨value, bound, sort, member⟩

end Circuit

namespace Problem

variable {formulas : List Formula} {problem : Problem} {box : Box} {valuation : Valuation}

theorem propagate_of_refuted (refuted : problem.refuted (problem.circuit.enclose box) = true) :
    problem.propagate box = .error box := by
  simp [propagate, maxRounds, narrowRounds, refuted]

/-- At a single point the bounds of a root are the value of its conjunct, so a
false formula refutes the box. -/
theorem Represents.refuted_of_points
    (represents : problem.Represents (formulas.flatMap Formula.conjuncts))
    (boolean : ∀ formula ∈ formulas, formula.IsBoolean) (isBox : problem.circuit.IsBox box)
    (encloses : problem.circuit.Encloses box valuation)
    (points : ∀ interval ∈ box, interval.isPoint = true) {formula : Formula}
    (member : formula ∈ formulas) (fails : formula.evaluate valuation = .ok (.bool false)) :
    problem.refuted (problem.circuit.enclose box) = true := by
  obtain ⟨conjunct, inConjuncts, isFalse⟩ :=
    ((formula.evaluate_eq_ok_iff _).mp fails).exists_conjunct
  obtain ⟨root, inRoots, rootOf⟩ :=
    represents.rooted conjunct (List.mem_flatMap.mpr ⟨formula, member, inConjuncts⟩)
  have bounds := (rootOf.realized.number_mem
    (hasSort_conjuncts (boolean formula member) inConjuncts) represents.wellFormed isBox encloses
    ((conjunct.evaluate_eq_ok_iff _).mpr isFalse)).2 points
  refine List.any_eq_true.mpr ⟨root, inRoots, ?_⟩
  rw [bounds]
  rfl

/-- Boolean formulas without primes, over finite domains with values, can be
compiled. Over any box of non-empty parts of the domains, propagation leaves
non-empty parts of the box, whether or not it ends in a conflict. It does not end
in one if the box holds a valuation that makes all formulas true, and then keeps
the valuation. It does if the box is a single point and a formula is false there. -/
theorem propagate_contracts (askable : ∀ formula ∈ formulas, formula.Askable) :
    ∃ problem, ofFormulas formulas = .ok problem ∧
      ∀ box, problem.circuit.IsBox box →
        (boxLeft (problem.propagate box)).Refines box ∧
        ∀ valuation, problem.circuit.Encloses box valuation →
          ((∀ formula ∈ formulas, formula.evaluate valuation = .ok (.bool true)) →
            ∃ enclosed, problem.propagate box = .ok enclosed ∧
              problem.circuit.Encloses enclosed.box valuation) ∧
          ((∀ interval ∈ box, interval.isPoint = true) →
            (∃ formula ∈ formulas, formula.evaluate valuation = .ok (.bool false)) →
            problem.propagate box = .error box) := by
  have bounded : ∀ formula ∈ formulas, formula.Bounded :=
    fun formula member => (askable formula member).toCompilable.bounded
  have boolean : ∀ formula ∈ formulas, formula.IsBoolean :=
    fun formula member => (formula.inferSort_eq_ok_iff .bool).mpr (askable formula member).typed
  obtain ⟨problem, compiled⟩ := exists_ofFormulas bounded
  have represents := represents_ofFormulas boolean compiled
  refine ⟨problem, compiled, fun box isBox => ⟨?_, fun valuation encloses => ⟨?_, ?_⟩⟩⟩
  · exact keeps_boxLeft_propagate (Box.Refines.inherited box) problem (.refl isBox.ordered)
  · intro holds
    have suits : ∀ conjunct ∈ formulas.flatMap Formula.conjuncts, valuation.Suits conjunct := by
      intro conjunct member
      obtain ⟨root, -, rootOf⟩ := represents.rooted conjunct member
      exact encloses.suits rootOf.realized
    have solved := represents.solved_of_evaluate boolean suits holds
    obtain ⟨enclosed, result, inside⟩ :=
      propagate_sound represents.wellFormed solved isBox encloses.inside
    exact ⟨enclosed, result, encloses.of_inside inside⟩
  · rintro points ⟨formula, member, fails⟩
    exact propagate_of_refuted
      (represents.refuted_of_points boolean isBox encloses points member fails)

private def divisor : Symbol := .current ⟨0, "x", .range 0 7⟩

private def dividend : Symbol := .current ⟨0, "y", .range (-3) 12⟩

private def multiple : Formula :=
  .nary .and [
    .binary .eq (.nary .mul [.int 3, .symbol divisor]) (.symbol dividend),
    .binary .neq (.symbol divisor) (.int 1)]

private def pair (first second : Int64) : Valuation :=
  .ofList [(divisor, .int first), (dividend, .int second)]

private theorem askable_multiple : multiple.Askable where
  primeFree := by simp [multiple]
  proper symbol mentions := by
    obtain (rfl | rfl) | rfl : (symbol = divisor ∨ symbol = dividend) ∨ symbol = divisor := by
      simpa [multiple] using mentions
    · decide
    · decide
    · decide
  typed := (multiple.inferSort_eq_ok_iff .bool).mp rfl

theorem propagate_contracts_multiple :
    multiple.Askable ∧ ∃ problem, ofFormulas [multiple] = .ok problem ∧
      (∃ enclosed, problem.propagate #[⟨1, 4⟩, ⟨2, 12⟩] = .ok enclosed ∧
        enclosed.box.Refines #[⟨1, 4⟩, ⟨2, 12⟩] ∧
        problem.circuit.Encloses enclosed.box (pair 2 6)) ∧
      problem.propagate #[.point 2, .point 5] = .error #[.point 2, .point 5] := by
  obtain ⟨problem, compiled, contracts⟩ :=
    propagate_contracts (List.forall_mem_singleton.mpr askable_multiple)
  obtain ⟨_, same, seen⟩ : ∃ problem, ofFormulas [multiple] = .ok problem ∧
      decide ((problem.circuit.IsBox #[⟨1, 4⟩, ⟨2, 12⟩] ∧
        problem.circuit.Encloses #[⟨1, 4⟩, ⟨2, 12⟩] (pair 2 6)) ∧
        problem.circuit.IsBox #[.point 2, .point 5] ∧
        problem.circuit.Encloses #[.point 2, .point 5] (pair 2 5)) = true :=
    Outcome.any_toOption_iff.mp (by decide +kernel)
  obtain rfl := Except.ok.inj (compiled.symm.trans same)
  obtain ⟨⟨isBox, encloses⟩, isPoint, atPoint⟩ := of_decide_eq_true seen
  obtain ⟨refines, keeps⟩ := contracts _ isBox
  obtain ⟨enclosed, result, inside⟩ := (keeps _ encloses).1
    (List.forall_mem_singleton.mpr rfl)
  rw [result] at refines
  refine ⟨askable_multiple, problem, compiled, ⟨enclosed, result, refines, inside⟩, ?_⟩
  exact ((contracts _ isPoint).2 _ atPoint).2 (by simp [Interval.point, Interval.isPoint])
    ⟨multiple, List.mem_cons_self, rfl⟩

end Problem

end SymbolicSafety
