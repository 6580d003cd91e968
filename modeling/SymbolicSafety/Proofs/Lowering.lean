import SymbolicSafety.Proofs.Execution

namespace SymbolicSafety

/-! Lowering as a relation, one rule for each kind of statement. Every
well-typed statement is lowered, as long as the versions it needs exist, and
gives each variable as many new versions as it writes it. -/

namespace Indexing

variable {indexing next : Indexing} {var : Variable}

theorem default_next (advanced : indexing.next? var = some next) :
    next.default = indexing.default := by
  simp only [next?, Option.bind_eq_bind, Option.bind_eq_some_iff, Option.pure_def,
    Option.some.injEq] at advanced
  obtain ⟨index, -, rfl⟩ := advanced
  rfl

theorem get_next_of_ne (advanced : indexing.next? var = some next) {other : Variable}
    (different : other ≠ var) : next.get other = indexing.get other := by
  apply UInt32.toNat.inj
  rw [get_next advanced, if_neg different, Nat.add_zero]

theorem exists_next (fits : (indexing.get var).toNat + 1 < UInt32.size) :
    ∃ next, indexing.next? var = some next := by
  have added : Version.add? (indexing.get var) 1 = some _ := if_pos fits
  exact ⟨_, by rw [next?, added]; rfl⟩

end Indexing

namespace Lowered

def meeting (start : Indexing) (branches : List Lowered) : Indexing :=
  branches.foldl (fun joined branch => joined.join branch.indexing) start

def padded (meeting : Indexing) (branch : Lowered) : Formula :=
  .mkAnd (branch.constraints ++ branch.padding meeting)

theorem merge_eq (start : Indexing) (branches : List Lowered) :
    merge start branches =
      ⟨[.mkOr (branches.map (padded (meeting start branches)))], meeting start branches⟩ := rfl

theorem upTo_meeting (start : Indexing) {branches : List Lowered} {branch : Lowered}
    (member : branch ∈ branches) : branch.indexing.UpTo (meeting start branches) :=
  (upTo_foldl_join start branches).2 branch member

theorem default_meeting {start : Indexing} {branches : List Lowered}
    (same : ∀ branch ∈ branches, branch.indexing.default = start.default) :
    (meeting start branches).default = start.default := by
  refine List.foldlRecOn (motive := fun joined : Indexing => joined.default = start.default)
    branches _ rfl fun joined kept branch member => ?_
  change max joined.default branch.indexing.default = start.default
  rw [kept, same branch member]
  exact ite_self _

theorem get_meeting {start : Indexing} {branches : List Lowered} {var : Variable}
    (same : ∀ branch ∈ branches, branch.indexing.get var = start.get var) :
    (meeting start branches).get var = start.get var := by
  refine List.foldlRecOn (motive := fun joined : Indexing => joined.get var = start.get var)
    branches _ rfl fun joined kept branch member => ?_
  rw [Indexing.get_join, kept, same branch member]
  exact ite_self _

variable {branch : Lowered} {target : Indexing}

def carried (branch : Lowered) (target : Indexing) (var : Variable) : Formula :=
  .mkEq (.version var (target.get var)) (.version var (branch.indexing.get var))

private theorem get_of_entered {var : Variable} {index : UInt32}
    (entered : (var, index) ∈ target.entries.entries) : target.get var = index := by
  rw [Indexing.get, (SortedMap.get?_eq_some_iff _ _ _).mpr entered, Option.getD_some]

theorem exists_carried {constraint : Formula} (member : constraint ∈ branch.padding target) :
    ∃ var, branch.indexing.get var < target.get var ∧ branch.carried target var = constraint := by
  simp only [padding, List.mem_filterMap, Option.ite_none_right_eq_some, Option.some.injEq,
    Prod.exists] at member
  obtain ⟨var, index, entered, earlier, rfl⟩ := member
  rw [← get_of_entered entered] at earlier ⊢
  exact ⟨var, earlier, rfl⟩

-- Only entries are padded. A variable without one is at the default version,
-- and no branch can be before that if it is the first.
theorem mem_padding (grounded : target.default = 0) {var : Variable}
    (earlier : branch.indexing.get var < target.get var) :
    branch.carried target var ∈ branch.padding target := by
  simp only [padding, List.mem_filterMap, Option.ite_none_right_eq_some, Option.some.injEq,
    Prod.exists]
  refine ⟨var, target.get var, ?_, earlier, rfl⟩
  cases found : target.entries.get? var with
  | none =>
      have first : target.get var = 0 := by rw [Indexing.get, found, Option.getD_none, grounded]
      rw [first] at earlier
      exact absurd earlier UInt32.not_lt_zero
  | some index =>
      have entered := (SortedMap.get?_eq_some_iff _ _ _).mp found
      rw [get_of_entered entered]
      exact entered

end Lowered

namespace Formula

theorem Plain.exists_mentions {formula unfolded : Formula} {indexing : Indexing}
    (plain : formula.Plain) (found : formula.unfoldAt? indexing = some unfolded) {symbol : Symbol}
    (mentions : unfolded.Mentions symbol) :
    ∃ name, formula.Mentions name ∧ name.var = symbol.var := by
  rw [(unfolds_of_unfoldPrimed? found).eq_rename_current plain.2 plain.1,
    mentions_rename_iff] at mentions
  obtain ⟨name, inFormula, rfl⟩ := mentions
  exact ⟨name, inFormula, rfl⟩

end Formula

namespace Statement

variable {start : Indexing} {statement : Statement} {lowered : Lowered}

/-- What lowering does to each kind of statement. -/
inductive Lowers : Indexing → Statement → Lowered → Prop where
  | skip (start : Indexing) : Lowers start .skip ⟨[], start⟩
  | assign {start next : Indexing} {var : Variable} {formula value : Formula} :
      start.next? var = some next → formula.unfoldAt? start = some value →
      Lowers start (.assign var formula) ⟨[.mkEq (.version var (next.get var)) value], next⟩
  | assume {start : Indexing} {condition unfolded : Formula} :
      condition.unfoldAt? start = some unfolded →
      Lowers start (.assume condition) ⟨[unfolded], start⟩
  | havoc {start next : Indexing} {var : Variable} :
      start.next? var = some next → Lowers start (.havoc var) ⟨[], next⟩
  | done (start : Indexing) : Lowers start (.sequence []) ⟨[], start⟩
  | next {start : Indexing} {step : Statement} {rest : List Statement} {first second : Lowered} :
      Lowers start step first → Lowers first.indexing (.sequence rest) second →
      Lowers start (.sequence (step :: rest))
        ⟨first.constraints ++ second.constraints, second.indexing⟩
  | idle (start : Indexing) : Lowers start (.choice []) ⟨[], start⟩
  | choice {start : Indexing} {branches : List Statement} {lowered : List Lowered} :
      branches ≠ [] → branches.length = lowered.length →
      (∀ (place : Nat) (branch : Statement) (low : Lowered), branches[place]? = some branch →
        lowered[place]? = some low → Lowers start branch low) →
      Lowers start (.choice branches) (.merge start lowered)

private theorem lowerBranches?_eq_some {branches : List Statement} {lowered : List Lowered}
    (length : branches.length = lowered.length)
    (each : ∀ (place : Nat) (branch : Statement) (low : Lowered), branches[place]? = some branch →
      lowered[place]? = some low → branch.lower? start = some low) :
    lowerBranches? start branches = some lowered := by
  induction branches generalizing lowered with
  | nil => rw [List.eq_nil_of_length_eq_zero length.symm, lowerBranches?]
  | cons branch rest induction =>
      cases lowered with
      | nil => simp at length
      | cons low others =>
          have first : branch.lower? start = some low := each 0 branch low rfl rfl
          have later := induction (Nat.succ.inj length) fun place => each (place + 1)
          simp [lowerBranches?, first, later]

theorem Lowers.lower?_eq (lowers : Lowers start statement lowered) :
    statement.lower? start = some lowered := by
  induction lowers with
  | skip | done | idle => rfl
  | assign advanced unfolded => simp [lower?, advanced, unfolded]
  | assume unfolded => simp [lower?, unfolded]
  | havoc advanced => simp [lower?, advanced]
  | next _ _ stepCase restCase =>
      rw [lower?] at restCase
      simp [lower?, lowerSteps?, stepCase, restCase]
  | @choice start branches lowered nonempty length _ branchCases =>
      have found := lowerBranches?_eq_some length branchCases
      cases branches with
      | nil => exact absurd rfl nonempty
      | cons first rest =>
          simp only [lowerBranches?, Option.bind_eq_bind, Option.bind_eq_some_iff,
            Option.pure_def, Option.some.injEq] at found
          obtain ⟨low, foundFirst, others, foundRest, rfl⟩ := found
          simp [lower?, foundFirst, foundRest]

theorem exists_branch {branches : List Statement} {lowered : List Lowered}
    (length : branches.length = lowered.length) {low : Lowered} (member : low ∈ lowered) :
    ∃ (place : Nat) (branch : Statement), branches[place]? = some branch ∧
      lowered[place]? = some low := by
  obtain ⟨place, found⟩ := List.mem_iff_getElem?.mp member
  obtain ⟨inside, -⟩ := List.getElem?_eq_some_iff.mp found
  exact ⟨place, branches[place], List.getElem?_eq_getElem (length ▸ inside), found⟩

theorem exists_lowered_branch {branches : List Statement} {lowered : List Lowered}
    (length : branches.length = lowered.length) {branch : Statement} (member : branch ∈ branches) :
    ∃ (place : Nat) (low : Lowered), branches[place]? = some branch ∧
      lowered[place]? = some low := by
  obtain ⟨place, found⟩ := List.mem_iff_getElem?.mp member
  obtain ⟨inside, -⟩ := List.getElem?_eq_some_iff.mp found
  exact ⟨place, lowered[place], found, List.getElem?_eq_getElem (length ▸ inside)⟩

theorem Lowers.default_eq (lowers : Lowers start statement lowered) :
    lowered.indexing.default = start.default := by
  induction lowers with
  | skip | done | idle | assume _ => rfl
  | assign advanced _ | havoc advanced => exact Indexing.default_next advanced
  | next _ _ stepCase restCase => exact restCase.trans stepCase
  | choice _ length _ branchCases =>
      apply Lowered.default_meeting
      intro low member
      obtain ⟨place, branch, found, foundLow⟩ := exists_branch length member
      exact branchCases place branch low found foundLow

/-! ## Variables -/

theorem Lowers.get_eq {var : Variable} (lowers : Lowers start statement lowered)
    (apart : ¬ statement.Concerns var) : lowered.indexing.get var = start.get var := by
  induction lowers with
  | skip | done | idle | assume _ => rfl
  | assign advanced _ =>
      apply Indexing.get_next_of_ne advanced
      intro same
      exact apart ((concerns_assign_iff ..).mpr (.inl same))
  | havoc advanced =>
      apply Indexing.get_next_of_ne advanced
      intro same
      exact apart ((concerns_havoc_iff ..).mpr same)
  | @next _ step rest _ _ _ _ stepCase restCase =>
      rw [concerns_next_iff, not_or] at apart
      exact (restCase apart.2).trans (stepCase apart.1)
  | choice _ length _ branchCases =>
      apply Lowered.get_meeting
      intro low member
      obtain ⟨place, branch, found, foundLow⟩ := exists_branch length member
      refine branchCases place branch low found foundLow fun concerns => apart ?_
      exact (concerns_choice_iff ..).mpr ⟨branch, List.mem_of_getElem? found, concerns⟩

theorem Lowers.concerns_of_mentions (lowers : Lowers start statement lowered)
    (wellTyped : statement.WellTyped) {constraint : Formula}
    (member : constraint ∈ lowered.constraints) {symbol : Symbol}
    (mentions : constraint.Mentions symbol) : statement.Concerns symbol.var := by
  induction lowers generalizing constraint with
  | skip | done | idle | havoc _ => cases member
  | @assign start next var formula value advanced found =>
      cases wellTyped with
      | assign plain =>
          obtain rfl := List.mem_singleton.mp member
          simp only [Formula.mkEq, Formula.mkComparison, Formula.version, Formula.mentions_binary,
            Formula.mentions_symbol] at mentions
          rw [concerns_assign_iff]
          rcases mentions with rfl | inValue
          · exact .inl rfl
          · exact .inr (plain.exists_mentions found inValue)
  | @assume start condition unfolded found =>
      cases wellTyped with
      | assume plain =>
          obtain rfl := List.mem_singleton.mp member
          exact (concerns_assume_iff ..).mpr (plain.exists_mentions found mentions)
  | @next _ step rest _ _ _ _ stepCase restCase =>
      cases wellTyped with
      | sequence each =>
          obtain ⟨first, later⟩ := List.forall_mem_cons.mp each
          rw [concerns_next_iff]
          rcases List.mem_append.mp member with inFirst | inSecond
          · exact .inl (stepCase first inFirst mentions)
          · exact .inr (restCase (.sequence later) inSecond mentions)
  | @choice start branches lowered nonempty length lowers branchCases =>
      cases wellTyped with
      | choice each =>
          obtain rfl := List.mem_singleton.mp member
          obtain ⟨_, taken, mentions⟩ := Formula.mentions_of_junction mentions
          obtain ⟨low, memberLow, rfl⟩ := List.mem_map.mp taken
          obtain ⟨constraint, member, mentions⟩ := Formula.mentions_of_junction mentions
          obtain ⟨place, branch, found, foundLow⟩ := exists_branch length memberLow
          have inBranches := List.mem_of_getElem? found
          have lowersBranch := lowers place branch low found foundLow
          apply Classical.byContradiction
          intro apart
          have apartBranch : ¬ branch.Concerns symbol.var := fun concerns =>
            apart ((concerns_choice_iff ..).mpr ⟨branch, inBranches, concerns⟩)
          rcases List.mem_append.mp member with own | inPadding
          · exact apartBranch (branchCases place branch low found foundLow (each branch inBranches)
              own mentions)
          · -- Nothing has to be carried over for a variable that no branch writes.
            obtain ⟨var, earlier, rfl⟩ := Lowered.exists_carried inPadding
            have about : symbol.var = var := by
              simp only [Lowered.carried, Formula.mkEq, Formula.mkComparison, Formula.version,
                Formula.mentions_binary, Formula.mentions_symbol] at mentions
              rcases mentions with rfl | rfl <;> rfl
            have met := (Lowers.choice nonempty length lowers).get_eq apart
            rw [about] at met apartBranch
            rw [lowersBranch.get_eq apartBranch, ← met] at earlier
            exact UInt32.lt_irrefl _ earlier

/-! ## How far versions go -/

mutual

/-- How many new versions the statement gives a variable. -/
def writes (var : Variable) : Statement → Nat
  | .skip | .assume _ => 0
  | .assign written _ | .havoc written => if var = written then 1 else 0
  | .sequence steps => writesInTurn var steps
  | .choice branches => writesOfAny var branches

def writesInTurn (var : Variable) : List Statement → Nat
  | [] => 0
  | step :: rest => step.writes var + writesInTurn var rest

def writesOfAny (var : Variable) : List Statement → Nat
  | [] => 0
  | branch :: rest => max (branch.writes var) (writesOfAny var rest)

end

theorem toNat_get_meeting {branches : List Statement} {lowered : List Lowered} {var : Variable}
    (length : branches.length = lowered.length)
    (each : ∀ (place : Nat) (branch : Statement) (low : Lowered), branches[place]? = some branch →
      lowered[place]? = some low →
      (low.indexing.get var).toNat = (start.get var).toNat + branch.writes var)
    {joined : Indexing} {count : Nat}
    (joinedAt : (joined.get var).toNat = (start.get var).toNat + count) :
    ((Lowered.meeting joined lowered).get var).toNat =
      (start.get var).toNat + max count (writesOfAny var branches) := by
  induction branches generalizing lowered joined count with
  | nil =>
      rw [List.eq_nil_of_length_eq_zero length.symm, writesOfAny, Nat.max_zero]
      exact joinedAt
  | cons branch rest induction =>
      cases lowered with
      | nil => simp at length
      | cons low others =>
          have reached := each 0 branch low rfl rfl
          have further : ((joined.join low.indexing).get var).toNat =
              (start.get var).toNat + max count (branch.writes var) := by
            rw [Indexing.get_join, Indexing.toNat_max, joinedAt, reached]
            omega
          rw [writesOfAny, ← Nat.max_assoc]
          exact induction (Nat.succ.inj length) (fun place => each (place + 1)) further

/-- Each variable gets as many new versions as it is written. -/
theorem Lowers.toNat_get (lowers : Lowers start statement lowered) (var : Variable) :
    (lowered.indexing.get var).toNat = (start.get var).toNat + statement.writes var := by
  induction lowers with
  | skip | done | idle | assume _ => rfl
  | assign advanced _ | havoc advanced => exact Indexing.get_next advanced var
  | next _ _ stepCase restCase =>
      rw [restCase, stepCase, Nat.add_assoc]
      rfl
  | choice _ length _ branchCases =>
      rw [writes, ← Nat.zero_max (writesOfAny var _)]
      exact toNat_get_meeting length branchCases rfl

def Lowerable (start : Indexing) (statement : Statement) : Prop :=
  ∃ lowered, Lowers start statement lowered ∧
    ∀ var, (lowered.indexing.get var).toNat = (start.get var).toNat + statement.writes var

theorem Lowers.lowerable (lowers : Lowers start statement lowered) : Lowerable start statement :=
  ⟨lowered, lowers, lowers.toNat_get⟩

private theorem lowerable_sequence {steps : List Statement}
    (each : ∀ step ∈ steps, ∀ start : Indexing,
      (∀ var, (start.get var).toNat + step.writes var < UInt32.size) → Lowerable start step)
    (fits : ∀ var, (start.get var).toNat + writesInTurn var steps < UInt32.size) :
    Lowerable start (.sequence steps) := by
  induction steps generalizing start with
  | nil => exact (Lowers.done start).lowerable
  | cons step rest induction =>
      obtain ⟨stepCase, restCases⟩ := List.forall_mem_cons.mp each
      simp only [writesInTurn] at fits
      obtain ⟨first, lowersFirst, reachedFirst⟩ :=
        stepCase start fun var => by have := fits var; omega
      have fitsRest : ∀ var, (first.indexing.get var).toNat + writesInTurn var rest <
          UInt32.size := by
        intro var
        rw [reachedFirst, Nat.add_assoc]
        exact fits var
      obtain ⟨second, lowersSecond, -⟩ := induction restCases fitsRest
      exact (lowersFirst.next lowersSecond).lowerable

private theorem exists_lowered_branches {branches : List Statement}
    (each : ∀ branch ∈ branches, Lowerable start branch) :
    ∃ lowered : List Lowered, branches.length = lowered.length ∧
      ∀ (place : Nat) (branch : Statement) (low : Lowered), branches[place]? = some branch →
        lowered[place]? = some low → Lowers start branch low := by
  induction branches with
  | nil => exact ⟨[], rfl, by simp⟩
  | cons branch rest induction =>
      obtain ⟨⟨low, lowers, -⟩, restCases⟩ := List.forall_mem_cons.mp each
      obtain ⟨lowered, length, lowersRest⟩ := induction restCases
      refine ⟨low :: lowered, congrArg _ length, fun place => ?_⟩
      cases place with
      | zero =>
          rintro _ _ ⟨⟩ ⟨⟩
          exact lowers
      | succ place => exact lowersRest place

private theorem le_writesOfAny (var : Variable) {branches : List Statement} {branch : Statement}
    (member : branch ∈ branches) : branch.writes var ≤ writesOfAny var branches := by
  induction member with
  | head => exact Nat.le_max_left _ _
  | tail _ _ induction => exact Nat.le_trans induction (Nat.le_max_right _ _)

private theorem lowerable_choice {branches : List Statement}
    (each : ∀ branch ∈ branches, Lowerable start branch) : Lowerable start (.choice branches) := by
  by_cases empty : branches = []
  · subst empty
    exact (Lowers.idle start).lowerable
  · obtain ⟨lowered, length, lowers⟩ := exists_lowered_branches each
    exact (Lowers.choice empty length lowers).lowerable

theorem WellTyped.lowerable (wellTyped : statement.WellTyped)
    (fits : ∀ var, (start.get var).toNat + statement.writes var < UInt32.size) :
    Lowerable start statement := by
  induction wellTyped generalizing start with
  | skip => exact (Lowers.skip start).lowerable
  | @assign var value plain typed =>
      have fitsVar := fits var
      simp only [writes, if_true] at fitsVar
      obtain ⟨next, advanced⟩ := Indexing.exists_next fitsVar
      obtain ⟨unfolded, found⟩ := Formula.exists_unfoldAt? plain.1 start
      exact (Lowers.assign advanced found).lowerable
  | @assume condition plain boolean =>
      obtain ⟨unfolded, found⟩ := Formula.exists_unfoldAt? plain.1 start
      exact (Lowers.assume found).lowerable
  | havoc var =>
      have fitsVar := fits var
      simp only [writes, if_true] at fitsVar
      obtain ⟨next, advanced⟩ := Indexing.exists_next fitsVar
      exact (Lowers.havoc advanced).lowerable
  | sequence _ stepCases =>
      exact lowerable_sequence (fun step member start => stepCases step member) fits
  | @choice branches _ branchCases =>
      apply lowerable_choice
      intro branch member
      apply branchCases branch member
      intro var
      have bound := fits var
      simp only [writes] at bound
      have le := le_writesOfAny var member
      omega

end Statement

end SymbolicSafety
