import SymbolicSafety.Proofs.Lowering

namespace SymbolicSafety

/-! Lowering at other indexings. A statement has the same constraints wherever it
starts, up to the versions that are current there, so the formula of its action
unfolds into them. What a branch carries over is the exception. An indexing has
no entry for a variable at the default version, so nothing is carried over to
that version. -/

private theorem eq_of_ascending {α κ : Type} [Ord κ] [Std.OrientedOrd κ] (key : α → κ)
    {left right : List α} (ascending : left.Pairwise fun a b => compare (key a) (key b) = .lt)
    (ascending' : right.Pairwise fun a b => compare (key a) (key b) = .lt)
    (same : ∀ a, a ∈ left ↔ a ∈ right) : left = right := by
  have nodup {list : List α}
      (ascending : list.Pairwise fun a b => compare (key a) (key b) = .lt) : list.Nodup :=
    ascending.imp fun less equal => by simp [equal, Std.ReflOrd.compare_self] at less
  refine List.Perm.eq_of_pairwise (fun a b _ _ less greater => ?_) ascending ascending'
    ((List.perm_ext_iff_of_nodup (nodup ascending) (nodup ascending')).mpr same)
  rw [Std.OrientedOrd.eq_swap, greater] at less
  cases less

namespace Indexing

variable {offset : Indexing} {var : Variable} {index : UInt32}

theorem mem_entries_iff (indexing : Indexing) (var : Variable) (index : UInt32) :
    (var, index) ∈ indexing.entries.entries ↔
      indexing.get var = index ∧ index ≠ indexing.default := by
  rw [← SortedMap.get?_eq_some_iff]
  constructor
  · intro found
    refine ⟨by rw [get, found, Option.getD_some], ?_⟩
    exact indexing.informative _ ((SortedMap.get?_eq_some_iff ..).mp found)
  · rintro ⟨rfl, special⟩
    cases found : indexing.entries.get? var with
    | none => simp [get, found] at special
    | some index => rw [get, found, Option.getD_some]

theorem eq_of_get {left right : Indexing} (default : left.default = right.default)
    (same : ∀ var, left.get var = right.get var) : left = right := by
  have entries : left.entries.entries = right.entries.entries := by
    refine eq_of_ascending Prod.fst left.entries.ascending right.entries.ascending fun entry => ?_
    rw [mem_entries_iff, mem_entries_iff, same, default]
  obtain ⟨_, ⟨_, _⟩, _⟩ := left
  obtain ⟨_, ⟨_, _⟩, _⟩ := right
  cases default
  cases entries
  rfl

theorem toNat_default_add {left right sum : Indexing} (added : left.add? right = some sum) :
    sum.default.toNat = left.default.toNat + right.default.toNat := by
  simp only [add?, pointwise?, Option.bind_eq_bind, Option.bind_eq_some_iff, Option.pure_def,
    Option.some.injEq] at added
  obtain ⟨default, defaults, entries, -, rfl⟩ := added
  exact (Version.ofNat?_eq_some_iff ..).mp defaults

def shift (offset : Indexing) : Symbol → Symbol
  | .current var => .current var
  | .version var index => .version var (.ofNat ((offset.get var).toNat + index.toNat))

theorem shift_version {index' : UInt32}
    (reached : index'.toNat = (offset.get var).toNat + index.toNat) :
    offset.shift (.version var index) = .version var index' := by
  rw [shift, ← reached, UInt32.ofNat_toNat]

theorem exists_next_ground {start ground next : Indexing}
    (above : (start.get var).toNat = (offset.get var).toNat + (ground.get var).toNat)
    (advanced : start.next? var = some next) :
    ∃ next', ground.next? var = some next' ∧
      (next.get var).toNat = (offset.get var).toNat + (next'.get var).toNat := by
  have number := get_next advanced var
  rw [if_pos rfl, above] at number
  have bound : (next.get var).toNat < UInt32.size := (next.get var).toNat_lt
  obtain ⟨next', advanced'⟩ : ∃ next', ground.next? var = some next' := exists_next (by omega)
  refine ⟨next', advanced', ?_⟩
  rw [number, get_next advanced' var, if_pos rfl, Nat.add_assoc]

end Indexing

namespace Formula

variable {change : Symbol → Symbol} {op : NaryOp} {neutral : Bool}

/-! ## Renaming what is built -/

private theorem rename_eq_bool_iff (formula : Formula) (value : Bool) :
    formula.rename change = .bool value ↔ formula = .bool value := by
  cases formula <;> simp [rename]

private theorem spread_rename (formula : Formula) :
    spread op neutral (formula.rename change) =
      (spread op neutral formula).map (rename change) := by
  cases formula with
  | bool value =>
      simp only [rename, spread]
      split <;> simp [rename]
  | nary op' operands =>
      simp only [rename, spread]
      split <;> simp [rename]
  | int | symbol | unary | binary | ite => simp [rename, spread]

theorem junction_map_rename (operands : List Formula) :
    junction op neutral (operands.map (rename change)) =
      (junction op neutral operands).rename change := by
  have decides : (operands.map (rename change)).contains (.bool !neutral) =
      operands.contains (.bool !neutral) := by
    simp only [List.contains_eq_mem, List.mem_map, rename_eq_bool_iff, exists_eq_right]
  have spreads : (operands.map (rename change)).flatMap (spread op neutral) =
      (operands.flatMap (spread op neutral)).map (rename change) := by
    simp only [List.flatMap_map, List.map_flatMap, spread_rename]
  rw [junction, junction, decides, spreads]
  split
  · rfl
  · cases operands.flatMap (spread op neutral) with
    | nil => rfl
    | cons first rest =>
        cases rest with
        | nil => rfl
        | cons second rest => simp [rename]

/-! ## Unfolding at other indexings -/

theorem Unfolds.fits {indexing : Indexing} {primes : Nat} {formula unfolded : Formula}
    (unfolds : Unfolds indexing primes formula unfolded) {var : Variable} {below : Nat}
    (occurs : OccursUnder var below formula) :
    (indexing.get var).toNat + primes + below < UInt32.size := by
  induction unfolds generalizing below with
  | bool | int | version =>
      cases occurs with
      | within _ member => simp [children] at member
  | @current primes var index number =>
      cases occurs with
      | here =>
          rw [Nat.add_zero, ← number]
          exact index.toNat_lt
      | within _ member => simp [children] at member
  | prime _ operandCase =>
      cases occurs with
      | prime occurs =>
          have fits := operandCase occurs
          omega
      | within notPrime => exact absurd rfl (notPrime _)
  | unary notPrime _ operandCase =>
      cases occurs with
      | prime => exact absurd rfl notPrime
      | within _ member occurs =>
          obtain rfl := List.mem_singleton.mp member
          exact operandCase occurs
  | binary _ _ leftCase rightCase =>
      cases occurs with
      | within _ member occurs =>
          simp only [children, List.mem_cons, List.not_mem_nil, or_false] at member
          rcases member with rfl | rfl
          · exact leftCase occurs
          · exact rightCase occurs
  | @nary primes op operands unfolded length _ operandCases =>
      cases occurs with
      | within _ member occurs =>
          obtain ⟨place, found⟩ := List.mem_iff_getElem?.mp member
          have inside : place < unfolded.length := length ▸ (List.getElem?_eq_some_iff.mp found).1
          exact operandCases place _ unfolded[place] found (List.getElem?_eq_getElem inside) occurs
  | ite _ _ _ conditionCase consequentCase alternativeCase =>
      cases occurs with
      | within _ member occurs =>
          simp only [children, List.mem_cons, List.not_mem_nil, or_false] at member
          rcases member with rfl | rfl | rfl
          · exact conditionCase occurs
          · exact consequentCase occurs
          · exact alternativeCase occurs

structure Movable (offset : Indexing) (formula : Formula) : Prop where
  primeFree : formula.PrimeFree
  versions : ∀ symbol, formula.Mentions symbol → ∃ index, symbol = .version symbol.var index ∧
    (offset.get symbol.var).toNat + index.toNat < UInt32.size

theorem Movable.junction {offset : Indexing} {operands : List Formula}
    (each : ∀ operand ∈ operands, operand.Movable offset) :
    (Formula.junction op neutral operands).Movable offset where
  primeFree := .junction fun operand member => (each operand member).primeFree
  versions symbol mentions := by
    obtain ⟨operand, member, mentions⟩ := mentions_of_junction mentions
    exact (each operand member).versions symbol mentions

theorem movable_mkEq {offset : Indexing} {var : Variable} {index : UInt32} {value : Formula}
    (fits : (offset.get var).toNat + index.toNat < UInt32.size) (movable : value.Movable offset) :
    (mkEq (.version var index) value).Movable offset where
  primeFree :=
    (primeFree_binary ..).mpr ⟨primeFree_symbol (.version var index), movable.primeFree⟩
  versions symbol mentions := by
    simp only [mkEq, mkComparison, version, mentions_binary, mentions_symbol] at mentions
    rcases mentions with rfl | inValue
    · exact ⟨index, rfl, fits⟩
    · exact movable.versions symbol inValue

theorem movable_version {offset : Indexing} {var : Variable} {index : UInt32}
    (fits : (offset.get var).toNat + index.toNat < UInt32.size) :
    (Formula.version var index).Movable offset where
  primeFree := primeFree_symbol (.version var index)
  versions symbol mentions := by
    obtain rfl := (mentions_symbol _ _).mp mentions
    exact ⟨index, rfl, fits⟩

section

variable {offset start ground : Indexing} {formula unfolded : Formula}

/-- What can be unfolded at an indexing can be unfolded at every earlier one, and
the first result is the second one, shifted. -/
theorem exists_unfoldAt?_ground (free : formula.VersionFree)
    (above : ∀ var, (start.get var).toNat = (offset.get var).toNat + (ground.get var).toNat)
    (found : formula.unfoldAt? start = some unfolded) :
    ∃ grounded, formula.unfoldAt? ground = some grounded ∧ grounded.Movable offset ∧
      unfolded = grounded.rename offset.shift := by
  have unfolds := unfolds_of_unfoldPrimed? found
  have fits {var : Variable} {below : Nat} (occurs : OccursUnder var below formula) :
      (offset.get var).toNat + (ground.get var).toNat + below < UInt32.size := by
    have bound := unfolds.fits occurs
    rw [above] at bound
    exact bound
  obtain ⟨grounded, foundGround⟩ : ∃ grounded, formula.unfoldAt? ground = some grounded := by
    apply exists_unfoldPrimed?
    intro var below occurs
    have bound := fits occurs
    omega
  have unfoldsGround := unfolds_of_unfoldPrimed? foundGround
  refine ⟨grounded, foundGround, ⟨unfoldsGround.primeFree, fun symbol mentions => ?_⟩, ?_⟩
  · obtain ⟨below, occurs, index, same, number⟩ := unfoldsGround.mentions free mentions
    have bound := fits occurs
    exact ⟨index, same, by omega⟩
  · refine unfoldsGround.eq_rename unfolds free ?_
    intro var below index index' _ number number'
    apply Indexing.shift_version
    rw [number, number', above]
    omega

theorem Movable.exists_fold (movable : formula.Movable offset) :
    ∃ folded, formula.fold (.all 0) = .ok folded ∧
      folded.unfoldAt? offset = some (formula.rename offset.shift) := by
  obtain ⟨folded, foldedAt⟩ : ∃ folded, formula.fold (.all 0) = .ok folded :=
    Formula.exists_fold fun var index _ => by simp
  have back : folded.unfoldAt? (.all 0) = some formula := by
    refine unfoldAt?_of_fold foldedAt movable.primeFree fun symbol mentions => ?_
    obtain ⟨index, same, -⟩ := movable.versions symbol mentions
    exact ⟨index, same⟩
  have fits {var : Variable} {below : Nat} (occurs : OccursUnder var below folded) :
      (offset.get var).toNat + 0 + below < UInt32.size := by
    rcases Nat.eq_zero_or_pos below with rfl | positive
    · exact (offset.get var).toNat_lt
    · obtain ⟨index, mentions, rfl⟩ := occurs.of_fold foldedAt movable.primeFree positive
      obtain ⟨index', same, bound⟩ := movable.versions _ mentions
      obtain ⟨-, rfl⟩ := Symbol.version.inj same
      rw [Indexing.get_all]
      exact bound
  obtain ⟨unfolded, found⟩ : ∃ unfolded, folded.unfoldAt? offset = some unfolded :=
    exists_unfoldPrimed? fun var below => fits
  refine ⟨folded, foldedAt, ?_⟩
  rw [found, (unfolds_of_unfoldPrimed? back).eq_rename (unfolds_of_unfoldPrimed? found)
    (versionFree_of_fold foldedAt)]
  intro var below index index' _ number number'
  apply Indexing.shift_version
  rw [number, number', Indexing.get_all]
  simp

end

end Formula

namespace Lowered

variable {branch : Lowered} {target : Indexing}

/-! ## What branches carry over -/

def laggards (branch : Lowered) (target : Indexing) : List Variable :=
  target.entries.keys.filter fun var => branch.indexing.get var < target.get var

theorem padding_eq_map (branch : Lowered) (target : Indexing) :
    branch.padding target = (branch.laggards target).map (branch.carried target) := by
  have held : ∀ entry ∈ target.entries.entries, entry.2 = target.get entry.1 :=
    fun entry member => ((Indexing.mem_entries_iff ..).mp member).1.symm
  unfold padding laggards SortedMap.keys
  generalize target.entries.entries = entries at held ⊢
  induction entries with
  | nil => rfl
  | cons entry rest induction =>
      obtain ⟨first, later⟩ := List.forall_mem_cons.mp held
      obtain ⟨var, index⟩ := entry
      obtain rfl : index = target.get var := first
      rw [List.filterMap_cons, List.map_cons, List.filter_cons, induction later]
      by_cases behind : branch.indexing.get var < target.get var <;> simp [behind, carried]

theorem mem_laggards {var : Variable}
    (clear : branch.indexing.get var < target.get var → target.get var ≠ target.default) :
    var ∈ branch.laggards target ↔ branch.indexing.get var < target.get var := by
  rw [laggards, List.mem_filter, decide_eq_true_iff]
  refine ⟨And.right, fun behind => ⟨?_, behind⟩⟩
  exact List.mem_map.mpr ⟨(var, target.get var),
    (Indexing.mem_entries_iff ..).mpr ⟨rfl, clear behind⟩, rfl⟩

private theorem laggards_ascending (branch : Lowered) (target : Indexing) :
    (branch.laggards target).Pairwise fun left right => compare left right = .lt :=
  (List.pairwise_map.mpr target.entries.ascending).filter _

variable {offset : Indexing}

/-- A branch carries the same variables over at all indexings, if at none of
them it would have to carry one to the default version. -/
theorem padding_shift {branch' : Lowered} {target' : Indexing}
    (reached : ∀ var, (branch'.indexing.get var).toNat =
      (offset.get var).toNat + (branch.indexing.get var).toNat)
    (aims : ∀ var, (target'.get var).toNat = (offset.get var).toNat + (target.get var).toNat)
    (clear : ∀ var, branch.indexing.get var < target.get var → target.get var ≠ target.default)
    (clear' : ∀ var, branch'.indexing.get var < target'.get var →
      target'.get var ≠ target'.default) :
    branch'.padding target' = (branch.padding target).map (Formula.rename offset.shift) := by
  have same : branch'.laggards target' = branch.laggards target := by
    refine eq_of_ascending id (laggards_ascending ..) (laggards_ascending ..) fun var => ?_
    rw [mem_laggards (clear' var), mem_laggards (clear var), UInt32.lt_iff_toNat_lt,
      UInt32.lt_iff_toNat_lt, reached, aims]
    omega
  rw [padding_eq_map, padding_eq_map, same, List.map_map]
  refine List.map_congr_left fun var _ => ?_
  simp only [Function.comp_apply, carried, Formula.mkEq, Formula.mkComparison, Formula.version,
    Formula.rename, Indexing.shift_version (aims var), Indexing.shift_version (reached var)]

end Lowered

namespace Statement

variable {start : Indexing} {statement : Statement} {lowered : Lowered}

/-! ## Statements at two indexings -/

inductive VersionFree : Statement → Prop where
  | skip : VersionFree .skip
  | assign (var : Variable) {value : Formula} : value.VersionFree → VersionFree (.assign var value)
  | assume {condition : Formula} : condition.VersionFree → VersionFree (.assume condition)
  | havoc (var : Variable) : VersionFree (.havoc var)
  | sequence {steps : List Statement} :
      (∀ step ∈ steps, VersionFree step) → VersionFree (.sequence steps)
  | choice {branches : List Statement} :
      (∀ branch ∈ branches, VersionFree branch) → VersionFree (.choice branches)

private theorem lowers_of_lowerSteps? {steps : List Statement}
    (each : ∀ step ∈ steps, ∀ (start : Indexing) (lowered : Lowered),
      step.lower? start = some lowered → Lowers start step lowered)
    (result : lowerSteps? start steps = some lowered) : Lowers start (.sequence steps) lowered := by
  induction steps generalizing start lowered with
  | nil =>
      obtain rfl := Option.some.inj result
      exact .done start
  | cons step rest induction =>
      obtain ⟨stepCase, restCases⟩ := List.forall_mem_cons.mp each
      simp only [lowerSteps?, Option.bind_eq_bind, Option.bind_eq_some_iff, Option.pure_def,
        Option.some.injEq] at result
      obtain ⟨first, loweredStep, second, loweredRest, rfl⟩ := result
      exact .next (stepCase start first loweredStep) (induction restCases loweredRest)

private theorem lowers_of_lowerBranches? {branches : List Statement}
    (each : ∀ branch ∈ branches, ∀ lowered,
      branch.lower? start = some lowered → Lowers start branch lowered)
    {lowered : List Lowered} (result : lowerBranches? start branches = some lowered) :
    branches.length = lowered.length ∧
      ∀ (place : Nat) (branch : Statement) (low : Lowered), branches[place]? = some branch →
        lowered[place]? = some low → Lowers start branch low := by
  induction branches generalizing lowered with
  | nil =>
      obtain rfl := Option.some.inj result
      simp
  | cons branch rest induction =>
      obtain ⟨branchCase, restCases⟩ := List.forall_mem_cons.mp each
      simp only [lowerBranches?, Option.bind_eq_bind, Option.bind_eq_some_iff, Option.pure_def,
        Option.some.injEq] at result
      obtain ⟨first, loweredBranch, others, loweredRest, rfl⟩ := result
      obtain ⟨length, later⟩ := induction restCases loweredRest
      refine ⟨congrArg _ length, fun place => ?_⟩
      cases place with
      | zero =>
          rintro _ _ ⟨⟩ ⟨⟩
          exact branchCase first loweredBranch
      | succ place => exact later place

theorem VersionFree.lowers (free : statement.VersionFree)
    (result : statement.lower? start = some lowered) : Lowers start statement lowered := by
  induction free generalizing start lowered with
  | skip =>
      obtain rfl := Option.some.inj result
      exact .skip start
  | assign var _ =>
      simp only [lower?, Option.bind_eq_bind, Option.bind_eq_some_iff, Option.pure_def,
        Option.some.injEq] at result
      obtain ⟨next, advanced, value, unfolded, rfl⟩ := result
      exact .assign advanced unfolded
  | assume _ =>
      simp only [lower?, Option.bind_eq_bind, Option.bind_eq_some_iff, Option.pure_def,
        Option.some.injEq] at result
      obtain ⟨condition, unfolded, rfl⟩ := result
      exact .assume unfolded
  | havoc var =>
      simp only [lower?, Option.bind_eq_bind, Option.bind_eq_some_iff, Option.pure_def,
        Option.some.injEq] at result
      obtain ⟨next, advanced, rfl⟩ := result
      exact .havoc advanced
  | sequence _ stepCases =>
      exact lowers_of_lowerSteps? (fun step member start lowered => stepCases step member) result
  | @choice branches _ branchCases =>
      cases branches with
      | nil =>
          obtain rfl := Option.some.inj result
          exact .idle start
      | cons first rest =>
          simp only [lower?, Option.bind_eq_bind, Option.bind_eq_some_iff, Option.pure_def,
            Option.some.injEq] at result
          obtain ⟨low, loweredFirst, others, loweredRest, rfl⟩ := result
          obtain ⟨length, each⟩ := lowers_of_lowerBranches?
            (fun branch member lowered => branchCases branch member)
            (show lowerBranches? start (first :: rest) = some (low :: others) by
              simp [lowerBranches?, loweredFirst, loweredRest])
          exact .choice (List.cons_ne_nil first rest) length each

/-- After this many new versions of the variable, counted from the start of the
statement, a choice meets that has a branch with fewer of them. -/
inductive CatchesUp (var : Variable) : Nat → Statement → Prop where
  | here {branches : List Statement} {branch : Statement} :
      branch ∈ branches → branch.writes var < writesOfAny var branches →
      CatchesUp var (writesOfAny var branches) (.choice branches)
  | branch {count : Nat} {branches : List Statement} {branch : Statement} :
      branch ∈ branches → CatchesUp var count branch → CatchesUp var count (.choice branches)
  | first {count : Nat} {step : Statement} {rest : List Statement} :
      CatchesUp var count step → CatchesUp var count (.sequence (step :: rest))
  | later {count : Nat} {step : Statement} {rest : List Statement} :
      CatchesUp var count (.sequence rest) →
      CatchesUp var (step.writes var + count) (.sequence (step :: rest))

/-- No branch has to catch up with the default version. -/
def Clears (start : Indexing) (statement : Statement) : Prop :=
  ∀ var count, statement.CatchesUp var count →
    (start.get var).toNat + count ≠ start.default.toNat

section

variable {offset ground : Indexing}

structure Grounds (offset ground : Indexing) (start : Indexing) (statement : Statement)
    (lowered low : Lowered) : Prop where
  lowers : Lowers ground statement low
  movable : ∀ constraint ∈ low.constraints, constraint.Movable offset
  shifted : statement.Clears start →
    lowered.constraints = low.constraints.map (Formula.rename offset.shift)

theorem Grounds.toNat_get {low : Lowered}
    (grounds : Grounds offset ground start statement lowered low)
    (lowers : Lowers start statement lowered)
    (above : ∀ var, (start.get var).toNat = (offset.get var).toNat + (ground.get var).toNat)
    (var : Variable) :
    (lowered.indexing.get var).toNat = (offset.get var).toNat + (low.indexing.get var).toNat := by
  rw [lowers.toNat_get, grounds.lowers.toNat_get, above, Nat.add_assoc]

private theorem exists_list_of_places {α β γ : Type} {related : α → β → γ → Prop} {left : List α}
    {right : List β} (length : left.length = right.length)
    (each : ∀ (place : Nat) (a : α) (b : β), left[place]? = some a → right[place]? = some b →
      ∃ c, related a b c) :
    ∃ list : List γ, right.length = list.length ∧
      ∀ (place : Nat) (a : α) (b : β) (c : γ), left[place]? = some a → right[place]? = some b →
        list[place]? = some c → related a b c := by
  induction left generalizing right with
  | nil =>
      obtain rfl := List.eq_nil_of_length_eq_zero length.symm
      exact ⟨[], rfl, by simp⟩
  | cons a left induction =>
      cases right with
      | nil => simp at length
      | cons b right =>
          obtain ⟨c, first⟩ := each 0 a b rfl rfl
          obtain ⟨list, sameLength, later⟩ :=
            induction (Nat.succ.inj length) fun place => each (place + 1)
          refine ⟨c :: list, congrArg _ sameLength, fun place => ?_⟩
          cases place with
          | zero =>
              rintro _ _ _ ⟨⟩ ⟨⟩ ⟨⟩
              exact first
          | succ place => exact later place

section

variable {branches : List Statement} {branch : Statement} {low : Lowered}
  {meeting meetingGround : Indexing}
  (grounds : Grounds offset ground start branch lowered low)
  (lowers : Lowers start branch lowered)
  (above : ∀ var, (start.get var).toNat = (offset.get var).toNat + (ground.get var).toNat)
  (aims : ∀ var, (meeting.get var).toNat =
    (offset.get var).toNat + (meetingGround.get var).toNat)

include grounds lowers above aims

private theorem movable_padded : (low.padded meetingGround).Movable offset := by
  refine .junction fun constraint member => ?_
  rcases List.mem_append.mp member with own | padded
  · exact grounds.movable constraint own
  · obtain ⟨var, -, rfl⟩ := Lowered.exists_carried padded
    have reached := grounds.toNat_get lowers above var
    exact Formula.movable_mkEq (aims var ▸ UInt32.toNat_lt _)
      (Formula.movable_version (reached ▸ UInt32.toNat_lt _))

private theorem padded_shift (member : branch ∈ branches) (clears : (choice branches).Clears start)
    (met : ∀ var, (meeting.get var).toNat = (start.get var).toNat + writesOfAny var branches)
    (default : meeting.default = start.default) (grounded : meetingGround.default = 0) :
    lowered.padded meeting = (low.padded meetingGround).rename offset.shift := by
  have own := grounds.shifted fun var count behind => clears var count (.branch member behind)
  have carried : lowered.padding meeting =
      (low.padding meetingGround).map (Formula.rename offset.shift) := by
    refine Lowered.padding_shift (grounds.toNat_get lowers above) aims
      (fun var behind first => ?_) (fun var behind atDefault => ?_)
    · rw [first, grounded] at behind
      exact UInt32.not_lt_zero behind
    · rw [UInt32.lt_iff_toNat_lt, met, lowers.toNat_get] at behind
      rw [← UInt32.toNat_inj, met, default] at atDefault
      exact clears var _ (.here member (by omega)) atDefault
  rw [Lowered.padded, own, carried, ← List.map_append]
  exact Formula.junction_map_rename _

end

private theorem grounds_choice {branches : List Statement} {lowered lows : List Lowered}
    (nonempty : branches ≠ []) (length : branches.length = lowered.length)
    (sameLength : lowered.length = lows.length)
    (lowersEach : ∀ (place : Nat) (branch : Statement) (lowered' : Lowered),
      branches[place]? = some branch → lowered[place]? = some lowered' →
      Lowers start branch lowered')
    (each : ∀ (place : Nat) (branch : Statement) (lowered' low : Lowered),
      branches[place]? = some branch → lowered[place]? = some lowered' →
      lows[place]? = some low → Grounds offset ground start branch lowered' low)
    (above : ∀ var, (start.get var).toNat = (offset.get var).toNat + (ground.get var).toNat)
    (grounded : ground.default = 0) :
    Grounds offset ground start (.choice branches) (.merge start lowered) (.merge ground lows) := by
  have entries {place : Nat} {low : Lowered} (found : lows[place]? = some low) :
      ∃ branch lowered', branches[place]? = some branch ∧ lowered[place]? = some lowered' := by
    have inside := (List.getElem?_eq_some_iff.mp found).1
    exact ⟨_, _, List.getElem?_eq_getElem (by omega), List.getElem?_eq_getElem (by omega)⟩
  have lowers : Lowers start (.choice branches) (.merge start lowered) :=
    .choice nonempty length lowersEach
  have lowersGround : Lowers ground (.choice branches) (.merge ground lows) := by
    refine .choice nonempty (length.trans sameLength) fun place branch low found foundLow => ?_
    obtain ⟨_, lowered', -, foundLowered⟩ := entries foundLow
    exact (each place branch lowered' low found foundLowered foundLow).lowers
  have met (var : Variable) : ((Lowered.meeting start lowered).get var).toNat =
      (start.get var).toNat + writesOfAny var branches := lowers.toNat_get var
  have aims (var : Variable) : ((Lowered.meeting start lowered).get var).toNat =
      (offset.get var).toNat + ((Lowered.meeting ground lows).get var).toNat := by
    have metGround : ((Lowered.meeting ground lows).get var).toNat =
      (ground.get var).toNat + writesOfAny var branches := lowersGround.toNat_get var
    rw [met, metGround, above, Nat.add_assoc]
  refine ⟨lowersGround, List.forall_mem_singleton.mpr
    (.junction (List.forall_mem_map.mpr fun low member => ?_)), fun clears => ?_⟩
  · obtain ⟨place, foundLow⟩ := List.mem_iff_getElem?.mp member
    obtain ⟨branch, lowered', found, foundLowered⟩ := entries foundLow
    exact movable_padded (each place branch lowered' low found foundLowered foundLow)
      (lowersEach place branch lowered' found foundLowered) above aims
  · have padded : lowered.map (Lowered.padded (Lowered.meeting start lowered)) =
        lows.map fun low => (low.padded (Lowered.meeting ground lows)).rename offset.shift := by
      refine map_eq_map_of_places sameLength fun place lowered' low foundLowered foundLow => ?_
      obtain ⟨branch, _, found, -⟩ := entries foundLow
      exact padded_shift (each place branch lowered' low found foundLowered foundLow)
        (lowersEach place branch lowered' found foundLowered) above aims
        (List.mem_of_getElem? found) clears met lowers.default_eq
        (lowersGround.default_eq.trans grounded)
    rw [Lowered.merge_eq, Lowered.merge_eq, padded, List.map_singleton, Formula.mkOr, Formula.mkOr,
      ← Formula.junction_map_rename, List.map_map]
    rfl

theorem Lowers.exists_grounds (lowers : Lowers start statement lowered)
    (free : statement.VersionFree)
    (above : ∀ var, (start.get var).toNat = (offset.get var).toNat + (ground.get var).toNat)
    (grounded : ground.default = 0) :
    ∃ low, Grounds offset ground start statement lowered low := by
  induction lowers generalizing ground with
  | skip => exact ⟨⟨[], ground⟩, .skip ground, by simp, fun _ => rfl⟩
  | @assign start next var formula value advanced found =>
      cases free with
      | assign _ free =>
          obtain ⟨next', advanced', reached⟩ := Indexing.exists_next_ground (above var) advanced
          obtain ⟨value', found', movable, rfl⟩ :=
            Formula.exists_unfoldAt?_ground free above found
          refine ⟨_, .assign advanced' found', List.forall_mem_singleton.mpr
            (Formula.movable_mkEq (reached ▸ (next.get var).toNat_lt) movable), fun _ => ?_⟩
          simp [Formula.mkEq, Formula.mkComparison, Formula.version, Formula.rename,
            Indexing.shift_version reached]
  | @assume start condition unfolded found =>
      cases free with
      | assume free =>
          obtain ⟨grounded, found', movable, rfl⟩ :=
            Formula.exists_unfoldAt?_ground free above found
          exact ⟨_, .assume found', List.forall_mem_singleton.mpr movable, fun _ => rfl⟩
  | @havoc start next var advanced =>
      obtain ⟨next', advanced', -⟩ := Indexing.exists_next_ground (above var) advanced
      exact ⟨_, .havoc advanced', by simp, fun _ => rfl⟩
  | done => exact ⟨⟨[], ground⟩, .done ground, by simp, fun _ => rfl⟩
  | @next start step rest first second lowersFirst lowersSecond stepCase restCase =>
      cases free with
      | sequence each =>
          obtain ⟨freeStep, freeRest⟩ := List.forall_mem_cons.mp each
          obtain ⟨low, grounds⟩ := stepCase freeStep above grounded
          obtain ⟨low', grounds'⟩ := restCase (.sequence freeRest)
            (grounds.toNat_get lowersFirst above) (grounds.lowers.default_eq.trans grounded)
          refine ⟨_, grounds.lowers.next grounds'.lowers,
            List.forall_mem_append.mpr ⟨grounds.movable, grounds'.movable⟩, fun clears => ?_⟩
          have clearsStep : step.Clears start :=
            fun var count behind => clears var count (.first behind)
          have clearsRest : (sequence rest).Clears first.indexing := by
            intro var count behind
            rw [lowersFirst.toNat_get, lowersFirst.default_eq, Nat.add_assoc]
            exact clears var _ (.later behind)
          rw [List.map_append, ← grounds.shifted clearsStep, ← grounds'.shifted clearsRest]
  | idle => exact ⟨⟨[], ground⟩, .idle ground, by simp, fun _ => rfl⟩
  | @choice start branches lowered nonempty length lowersEach branchCases =>
      cases free with
      | choice each =>
          obtain ⟨lows, sameLength, grounds⟩ := exists_list_of_places length
            fun place branch low found foundLow => branchCases place branch low found foundLow
              (each branch (List.mem_of_getElem? found)) above grounded
          exact ⟨_, grounds_choice nonempty length sameLength lowersEach grounds above grounded⟩

end

end Statement

namespace Action

/-- The formula of a statement's action can be unfolded wherever the statement
can be lowered, and its delta leads to the indexing that the lowering reaches.
What it unfolds into is the lowering, unless a branch has to catch up with the
default version. -/
theorem unfolds_into_lowering {statement : Statement} (free : statement.VersionFree)
    {indexing : Indexing} {lowered : Lowered} (result : statement.lower? indexing = some lowered) :
    ∃ action unfolded, ofStatement statement = .ok action ∧
      indexing.add? action.delta = some lowered.indexing ∧
      action.formula.unfoldAt? indexing = some unfolded ∧
      (statement.Clears indexing → unfolded = lowered.formula) := by
  have lowers := free.lowers result
  have above (var : Variable) : (indexing.get var).toNat =
      (indexing.get var).toNat + ((Indexing.all 0).get var).toNat := by simp
  obtain ⟨low, grounds⟩ := lowers.exists_grounds free above rfl
  have movable : low.formula.Movable indexing := .junction grounds.movable
  obtain ⟨folded, foldedAt, unfolded⟩ := movable.exists_fold
  refine ⟨⟨folded, low.indexing⟩, _, ?_, ?_, unfolded, fun clears => ?_⟩
  · simp [ofStatement, grounds.lowers.lower?_eq, foldedAt]
  · have reached := grounds.toNat_get lowers above
    obtain ⟨sum, added⟩ : ∃ sum, indexing.add? low.indexing = some sum :=
      Indexing.exists_add? fun var => reached var ▸ UInt32.toNat_lt _
    have default : low.indexing.default = 0 := grounds.lowers.default_eq
    rw [added, Option.some.injEq]
    apply Indexing.eq_of_get
    · rw [← UInt32.toNat_inj, Indexing.toNat_default_add added, default, lowers.default_eq]
      rfl
    · intro var
      rw [← UInt32.toNat_inj, Indexing.get_add added, reached]
  · rw [Lowered.formula, Lowered.formula, grounds.shifted clears, Formula.mkAnd, Formula.mkAnd,
      Formula.junction_map_rename]

end Action

namespace Relocation

def level : Variable := ⟨0, "level", .range 0 9⟩

def lift : Statement := .choice [.assign level (.int 1), .skip]

def behind : Indexing := (Indexing.all 3).set level 2

private theorem eq_of_catchesUp_lift {var : Variable} {count : Nat}
    (catchesUp : lift.CatchesUp var count) : var = level ∧ count = 1 := by
  cases catchesUp with
  | @here branches branch _ fewer =>
      by_cases same : var = level
      · simp [same, Statement.writesOfAny, Statement.writes]
      · simp [same, Statement.writesOfAny, Statement.writes] at fewer
  | branch member catchesUp =>
      simp only [List.mem_cons, List.not_mem_nil, or_false] at member
      rcases member with rfl | rfl <;> cases catchesUp

private theorem versionFree_lift : lift.VersionFree := by
  refine .choice (List.forall_mem_cons.mpr ⟨.assign level ?_, List.forall_mem_singleton.mpr .skip⟩)
  simp [Formula.VersionFree]

theorem unfolds_into_lowering_overtaking :
    ∃ lowered, (Statement.sequence [.assign level (.int 0), lift]).lower? behind = some lowered ∧
      (Statement.sequence [.assign level (.int 0), lift]).Clears behind ∧
      ∃ action, Action.ofStatement (.sequence [.assign level (.int 0), lift]) = .ok action ∧
        behind.add? action.delta = some lowered.indexing ∧
        action.formula.unfoldAt? behind = some lowered.formula := by
  have free : (Statement.sequence [.assign level (.int 0), lift]).VersionFree := by
    refine .sequence (List.forall_mem_cons.mpr ⟨.assign level ?_,
      List.forall_mem_singleton.mpr versionFree_lift⟩)
    simp [Formula.VersionFree]
  have clears : (Statement.sequence [.assign level (.int 0), lift]).Clears behind := by
    intro var count catchesUp
    cases catchesUp with
    | first catchesUp => cases catchesUp
    | later catchesUp =>
        cases catchesUp with
        | later catchesUp => cases catchesUp
        | first catchesUp =>
            obtain ⟨rfl, rfl⟩ := eq_of_catchesUp_lift catchesUp
            decide
  obtain ⟨lowered, result⟩ : ∃ lowered,
      (Statement.sequence [.assign level (.int 0), lift]).lower? behind = some lowered := ⟨_, rfl⟩
  obtain ⟨action, unfolded, made, added, found, same⟩ := Action.unfolds_into_lowering free result
  exact ⟨lowered, result, clears, action, made, added, same clears ▸ found⟩

/-- A lift by itself ends at the default version. Its lowering there does not say
that the level is kept if it is not set. -/
theorem lowering_omits_catching_up : ∃ action lowered,
    lift.VersionFree ∧ Action.ofStatement lift = .ok action ∧
    lift.lower? behind = some lowered ∧ lowered.formula = .bool true ∧
    action.formula.unfoldAt? behind = some (.nary .or
      [.binary .eq (.version level 3) (.int 1),
        .binary .eq (.version level 3) (.version level 2)]) :=
  ⟨_, _, versionFree_lift, rfl, rfl, rfl, rfl⟩

end Relocation

end SymbolicSafety
