import SymbolicSafety.Proofs.Derivations

namespace SymbolicSafety

/-! What is derived is read, and in one way only. Readers stop where a derivation
ends, so a text determines where each part of its derivation ends, and with that
the derivation. -/

namespace Grammar

open Parser

def rank : Level → Nat
  | .formula => 1
  | .equivalence => 2
  | .implication => 3
  | .list op | .run op | .term op => op.kind.precedence
  | .negation => 6
  | .comparison => 7
  | .signed => 10
  | .primed => 11
  | .atom => 12

theorem rank_operand (op : NaryOp) : rank (operand op) = op.kind.precedence + 1 := by
  cases op <;> rfl

theorem leads {level : Level} (derivation : Derivation level) :
    Leads (rank level) derivation.yield := by
  have append {bound : Nat} {first rest : List Token} (leads : Leads bound first) :
      Leads bound (first ++ rest) := by
    obtain ⟨token, more, rfl, lead⟩ := leads
    exact ⟨token, more ++ rest, rfl, lead⟩
  induction derivation with
  | conditional => exact ⟨.ifWord, _, rfl, Nat.le_refl 1⟩
  | formula _ inner => exact inner.mono (by decide)
  | iff _ _ left => exact append left
  | equivalence _ inner => exact inner.mono (by decide)
  | implies _ _ left => exact append (left.mono (by decide))
  | implication _ inner => exact inner.mono (by decide)
  | several _ inner => exact inner
  | single _ inner => exact inner
  | extend _ _ left => exact append left
  | pair _ _ left => exact append left
  | close _ _ _ _ left => exact append left
  | @term op _ inner =>
      rw [rank_operand] at inner
      exact inner.mono (Nat.le_succ _)
  | not => exact ⟨.bang, _, rfl, Nat.le_refl 6⟩
  | negation _ inner => exact inner.mono (by decide)
  | compare _ _ _ _ left => exact append (left.mono (by decide))
  | comparison _ inner => exact inner.mono (by decide)
  | minus => exact ⟨.minus, _, rfl, Nat.le_refl 10⟩
  | signed _ inner => exact inner.mono (by decide)
  | tick _ inner => exact append inner
  | primed _ inner => exact inner.mono (by decide)
  | bool value => cases value <;> exact ⟨_, _, rfl, Nat.le_refl 12⟩
  | literal | name | version | group => exact ⟨_, _, rfl, Nat.le_refl 12⟩

def ReadsAt (depth : Nat) {level : Level} (derivation : Derivation level) : Prop :=
  Reads (reader depth (rank level)) (rank level) derivation.yield derivation.tree

structure Chains {β : Type} (depth : Nat) (separators : Token → Option β) {level : Level}
    (first : Derivation level) (links : List (Link β level)) : Prop where
  separates : ∀ link ∈ links, separators link.separator = some link.op
  first : ReadsAt depth first
  each : ∀ link ∈ links, ReadsAt depth link.operand

theorem Chains.reads {β : Type} {depth bound : Nat} {separators : Token → Option β} {level : Level}
    {first : Derivation level} {links : List (Link β level)}
    (chains : Chains depth separators first links)
    (binds : ∀ token found, separators token = some found → token.strength = bound)
    (tighter : rank level = bound + 1) (build : Tree → List (β × Tree) → Tree) :
    Reads (chain separators (reader depth (rank level)) build) bound
      (first.yield ++ Link.written links) (build first.tree (Link.trees links)) := by
  have readsFirst := chains.first
  have readsEach := chains.each
  simp only [ReadsAt, tighter] at readsFirst readsEach
  rw [tighter]
  exact chain_append chains.separates binds readsEach build readsFirst

theorem reader_list (depth : Nat) (op : NaryOp) :
    reader depth (rank (.list op)) = runs op (operator op) (reader depth (rank (operand op))) := by
  cases op with
  | and | or => exact joined_eq_runs ..
  | add | mul => rfl

theorem strength_operator {op : NaryOp} {token : Token} {found : Option BinaryOp}
    (accepted : operator op token = some found) : token.strength = op.kind.precedence := by
  cases found with
  | none =>
      rw [(operator_eq_none_iff op token).mp accepted]
      cases op <;> rfl
  | some closer =>
      obtain ⟨closes, rfl⟩ := (operator_eq_some_iff op token closer).mp accepted
      cases op with
      | and | or => simp [closers] at closes
      | add | mul =>
          simp only [closers, List.mem_cons, List.not_mem_nil, or_false] at closes
          rcases closes with rfl | rfl <;> rfl

/-- The tokens are those of a chain, and reading them collects the run. -/
def Flattens (depth : Nat) (op : NaryOp) (tokens : List Token) (run : List Tree) : Prop :=
  ∃ (first : Derivation (operand op)) (links : List (Link (Option BinaryOp) (operand op))),
    Chains depth (operator op) first links ∧ tokens = first.yield ++ Link.written links ∧
      ∀ more, buildRuns op [first.tree] (Link.trees links ++ more) = buildRuns op run more

def FlattensTo (depth : Nat) (separator : Token) (level : Level)
    (build : Tree → List (Unit × Tree) → Tree) (tokens : List Token) (tree : Tree) : Prop :=
  ∃ (first : Derivation level) (links : List (Link Unit level)),
    Chains depth (only separator) first links ∧ tokens = first.yield ++ Link.written links ∧
      build first.tree (Link.trees links) = tree

section Chains

variable {depth : Nat}

theorem Chains.nil {β : Type} {separators : Token → Option β} {level : Level}
    {first : Derivation level} (reads : ReadsAt depth first) : Chains depth separators first [] :=
  ⟨by simp, reads, by simp⟩

theorem Chains.concat {β : Type} {separators : Token → Option β} {level : Level}
    {first : Derivation level} {links : List (Link β level)} {link : Link β level}
    (chains : Chains depth separators first links)
    (separates : separators link.separator = some link.op) (reads : ReadsAt depth link.operand) :
    Chains depth separators first (links ++ [link]) where
  separates := by simpa [or_imp, forall_and] using ⟨chains.separates, separates⟩
  first := chains.first
  each := by simpa [or_imp, forall_and] using ⟨chains.each, reads⟩

theorem Flattens.concat {op : NaryOp} {tokens : List Token} {run longer : List Tree}
    (flattens : Flattens depth op tokens run) {separator : Token} {found : Option BinaryOp}
    (separates : operator op separator = some found) {next : Derivation (operand op)}
    (reads : ReadsAt depth next)
    (collects : ∀ more, buildRuns op run ((found, next.tree) :: more) = buildRuns op longer more) :
    Flattens depth op (tokens ++ separator :: next.yield) longer := by
  obtain ⟨first, links, chains, rfl, builds⟩ := flattens
  let link : Link (Option BinaryOp) (operand op) := ⟨separator, found, next⟩
  have concat : Chains depth (operator op) first (links ++ [link]) := chains.concat separates reads
  refine ⟨first, links ++ [link], concat, ?_, fun more => ?_⟩
  · simp [Link.written, link]
  · rw [Link.trees, List.map_append, List.append_assoc]
    exact (builds _).trans (collects more)

theorem Flattens.reads {op : NaryOp} {tokens : List Token} {run : List Tree}
    (flattens : Flattens depth op tokens run) :
    Reads (reader depth (rank (.list op))) (rank (.list op)) tokens (closeRun op run) := by
  obtain ⟨first, links, chains, rfl, builds⟩ := flattens
  have whole : buildRuns op [first.tree] (Link.trees links) = closeRun op run := by
    simpa [buildRuns] using builds []
  rw [← whole, reader_list]
  exact chains.reads (fun _ _ => strength_operator) (rank_operand op) (buildRuns op [·])

theorem FlattensTo.reads {separator : Token} {level : Level}
    {build : Tree → List (Unit × Tree) → Tree} {tokens : List Token} {tree : Tree}
    (flattens : FlattensTo depth separator level build tokens tree)
    (tighter : rank level = separator.strength + 1) :
    Reads (chain (only separator) (reader depth (rank level)) build) separator.strength tokens
      tree := by
  obtain ⟨first, links, chains, rfl, rfl⟩ := flattens
  exact chains.reads (fun _ _ => strength_only) tighter build

end Chains

/-! ## What is derived is read -/

/-- How a derivation is read. What goes on to the left of more operators or primes
is read together with them. -/
def Readable (depth : Nat) : {level : Level} → Derivation level → Prop
  | .equivalence, derivation =>
      FlattensTo depth .iff .implication buildEquivalence derivation.yield derivation.tree
  | .implication, derivation =>
      FlattensTo depth .implies (.list .or) buildImplication derivation.yield derivation.tree
  | .list op, derivation =>
      ∃ run, Flattens depth op derivation.yield run ∧ closeRun op run = derivation.tree
  | .run op, derivation => Flattens depth op derivation.yield derivation.operands
  | .term op, derivation => Flattens depth op derivation.yield [derivation.tree]
  | .primed, derivation => ∀ rest, Stops 12 rest →
      Parser.primed (Parser.formula depth) (derivation.yield ++ rest) =
        .ok (primes derivation.tree rest)
  | _, derivation => ReadsAt depth derivation

section Readable

variable {depth : Nat}

theorem Readable.reads {level : Level} {derivation : Derivation level}
    (readable : Readable depth derivation) : ReadsAt depth derivation := by
  cases level with
  | equivalence => exact FlattensTo.reads readable rfl
  | implication => exact FlattensTo.reads readable rfl
  | list op =>
      obtain ⟨run, flattens, same⟩ := readable
      rw [ReadsAt, ← same]
      exact flattens.reads
  | run op =>
      rw [ReadsAt, ← derivation.closeRun_operands]
      exact Flattens.reads readable
  | term op => exact Flattens.reads readable
  | primed =>
      intro rest stops
      rw [← primes_of_stops stops]
      exact readable rest (stops.mono (by decide))
  | formula | negation | comparison | signed | atom => exact readable

theorem reads_conditional {condition consequent alternative : Derivation .formula}
    (first : ReadsAt depth condition) (second : ReadsAt depth consequent)
    (third : ReadsAt depth alternative) :
    ReadsAt (depth + 1) (.conditional condition consequent alternative) := by
  intro rest stops
  have readAlternative : Parser.formula (depth + 1) _ = .ok _ := third rest stops
  have readConsequent : Parser.formula (depth + 1) _ = .ok _ :=
    second (.elseWord :: (alternative.yield ++ rest)) (stops_cons (by decide))
  have readCondition : Parser.formula (depth + 1) _ = .ok _ :=
    first (.thenWord :: (consequent.yield ++ .elseWord :: (alternative.yield ++ rest)))
      (stops_cons (by decide))
  simp only [rank, reader, Derivation.yield, List.cons_append, List.append_assoc]
  rw [Parser.formula]
  simp only [readCondition, expect_self, readConsequent, readAlternative, bind, Except.bind, pure,
    Except.pure]
  rfl

theorem reads_group {inner : Derivation .formula} (reads : ReadsAt depth inner) :
    ReadsAt (depth + 1) (.group inner) := by
  intro rest _
  have stops : Stops 1 (.closeParen :: rest) := stops_cons (by decide)
  have read : Parser.formula (depth + 1) _ = .ok _ := reads _ stops
  simp [rank, reader, atom, Derivation.yield, Derivation.tree, read]

theorem reads_version (word : String) (index : UInt32) : ReadsAt depth (.version word index) := by
  intro rest _
  have found : Version.ofInt? index.toNat = some index :=
    (Version.ofInt?_eq_some_iff _ _).mpr rfl
  simp only [rank, reader, Derivation.yield, Derivation.tree, List.cons_append, List.nil_append,
    atom, toInt_literal, found]

theorem reads_name (word : String) : ReadsAt depth (.name word) := by
  intro rest stops
  cases rest with
  | nil => simp [rank, reader, atom, Derivation.yield, Derivation.tree]
  | cons token more =>
      have notSign : token ≠ .atSign := by
        rintro rfl
        exact absurd (stops .atSign rfl) (by decide)
      simp [rank, reader, atom, Derivation.yield, Derivation.tree, notSign]

theorem reads_not {inner : Derivation .negation} (reads : ReadsAt depth inner) :
    ReadsAt depth (.not inner) := by
  intro rest stops
  have read : Parser.negation (Parser.formula depth) _ = .ok _ := reads rest stops
  simp [rank, reader, Parser.negation, Derivation.yield, Derivation.tree, read]

theorem tree_minus (inner : Derivation .signed) :
    (Derivation.minus inner).tree = negated inner.tree := by
  simp only [Derivation.tree]
  unfold negated
  rfl

theorem reads_minus {inner : Derivation .signed} (reads : ReadsAt depth inner) :
    ReadsAt depth (.minus inner) := by
  intro rest stops
  have read : Parser.signed (Parser.formula depth) _ = .ok _ := reads rest stops
  rw [tree_minus]
  simp [rank, reader, Parser.signed, Derivation.yield, read]

theorem reads_compare {op : BinaryOp} (compares : op ∈ comparisons)
    {left right : Derivation (.list .add)} (readsLeft : ReadsAt depth left)
    (readsRight : ReadsAt depth right) : ReadsAt depth (.compare op compares left right) :=
  Formula.reads_comparison readsLeft readsRight
    ((comparisonOperator_eq_some_iff ..).mpr ⟨compares, rfl⟩)

theorem FlattensTo.iff {left : Derivation .equivalence} {right : Derivation .implication}
    (flattens : Readable depth left) (reads : ReadsAt depth right) :
    Readable depth (.iff left right) := by
  obtain ⟨first, links, chains, written, builds⟩ := flattens
  let link : Link Unit .implication := ⟨.iff, (), right⟩
  have concat : Chains depth (only .iff) first (links ++ [link]) := chains.concat rfl reads
  refine ⟨first, links ++ [link], concat, ?_, ?_⟩
  · simp [Derivation.yield, Link.written, link, written]
  · rw [Derivation.tree, ← builds]
    simp [Link.trees, buildEquivalence, link]

theorem FlattensTo.implies {left : Derivation (.list .or)} {right : Derivation .implication}
    (reads : ReadsAt depth left) (flattens : Readable depth right) :
    Readable depth (.implies left right) := by
  obtain ⟨first, links, chains, written, builds⟩ := flattens
  let link : Link Unit (.list .or) := ⟨.implies, (), first⟩
  refine ⟨left, link :: links, ⟨?_, reads, ?_⟩, ?_, ?_⟩
  · exact List.forall_mem_cons.mpr ⟨rfl, chains.separates⟩
  · exact List.forall_mem_cons.mpr ⟨chains.first, chains.each⟩
  · simp [Derivation.yield, Link.written, link, written]
  · rw [Derivation.tree, ← builds]
    simp [Link.trees, buildImplication, link]

end Readable

theorem readable {level : Level} (derivation : Derivation level) (depth : Nat)
    (fits : derivation.yield.length ≤ depth) : Readable depth derivation := by
  induction derivation generalizing depth with
  | conditional condition consequent alternative first second third =>
      simp only [Derivation.yield, List.length_cons, List.length_append] at fits
      obtain ⟨depth, rfl⟩ : ∃ less, depth = less + 1 := Nat.exists_eq_add_one.mpr (by omega)
      exact reads_conditional (first depth (by omega)).reads (second depth (by omega)).reads
        (third depth (by omega)).reads
  | formula inner induction =>
      exact (induction depth fits).reads.looser (by decide) (by decide) (leads inner)
  | iff left right inductionLeft inductionRight =>
      simp only [Derivation.yield, List.length_cons, List.length_append] at fits
      exact .iff (inductionLeft depth (by omega)) (inductionRight depth (by omega)).reads
  | equivalence inner induction =>
      exact ⟨inner, [], .nil (induction depth fits).reads, (List.append_nil _).symm, rfl⟩
  | implies left right inductionLeft inductionRight =>
      simp only [Derivation.yield, List.length_cons, List.length_append] at fits
      exact .implies (inductionLeft depth (by omega)).reads (inductionRight depth (by omega))
  | implication inner induction =>
      exact ⟨inner, [], .nil (induction depth fits).reads, (List.append_nil _).symm, rfl⟩
  | several inner induction => exact ⟨_, induction depth fits, inner.closeRun_operands⟩
  | single inner induction => exact ⟨_, induction depth fits, rfl⟩
  | extend left right inductionLeft inductionRight =>
      simp only [Derivation.yield, List.length_cons, List.length_append] at fits
      have before : Flattens .. := inductionLeft depth (by omega)
      exact before.concat ((operator_eq_none_iff ..).mpr rfl)
        (inductionRight depth (by omega)).reads fun more => rfl
  | pair left right inductionLeft inductionRight =>
      simp only [Derivation.yield, List.length_cons, List.length_append] at fits
      have before : Flattens .. := inductionLeft depth (by omega)
      exact before.concat ((operator_eq_none_iff ..).mpr rfl)
        (inductionRight depth (by omega)).reads fun more => rfl
  | close closer closes left right inductionLeft inductionRight =>
      simp only [Derivation.yield, List.length_cons, List.length_append] at fits
      obtain ⟨run, before, same⟩ := inductionLeft depth (by omega)
      refine before.concat ((operator_eq_some_iff ..).mpr ⟨closes, rfl⟩)
        (inductionRight depth (by omega)).reads fun more => ?_
      rw [Derivation.tree, ← same]
      rfl
  | term inner induction =>
      exact ⟨inner, [], .nil (induction depth fits).reads, (List.append_nil _).symm, fun _ => rfl⟩
  | not inner induction => exact reads_not (induction depth (Nat.le_of_succ_le fits)).reads
  | negation inner induction =>
      exact (induction depth fits).reads.looser (by decide) (by decide) (leads inner)
  | compare op compares left right inductionLeft inductionRight =>
      simp only [Derivation.yield, List.length_cons, List.length_append] at fits
      exact reads_compare compares (inductionLeft depth (by omega)).reads
        (inductionRight depth (by omega)).reads
  | comparison inner induction =>
      exact (induction depth fits).reads.looser (by decide) (by decide) (leads inner)
  | minus inner induction => exact reads_minus (induction depth (Nat.le_of_succ_le fits)).reads
  | signed inner induction =>
      exact (induction depth fits).reads.looser (by decide) (by decide) (leads inner)
  | tick inner induction =>
      intro rest _
      simp only [Derivation.yield, List.length_append] at fits
      have stops : Stops 12 (.tick :: rest) := stops_cons (by decide)
      have before := induction depth (Nat.le_of_add_right_le fits) _ stops
      simpa [Derivation.yield, Derivation.tree, primes] using before
  | primed inner induction =>
      intro rest stops
      have read : atom (Parser.formula depth) _ = .ok _ := (induction depth fits).reads rest stops
      simp [Derivation.yield, Derivation.tree, Parser.primed, read]
  | bool value =>
      intro rest _
      cases value <;> rfl
  | literal value =>
      intro rest _
      rfl
  | name word => exact reads_name word
  | version word index => exact reads_version word index
  | group inner induction =>
      simp only [Derivation.yield, List.length_cons, List.length_append] at fits
      obtain ⟨depth, rfl⟩ : ∃ less, depth = less + 1 := Nat.exists_eq_add_one.mpr (by omega)
      exact reads_group (induction depth (by omega)).reads

/-! ## A text has one derivation -/

/-- Where a derivation ends does not depend on the derivation. -/
theorem yield_unique {level : Level} {first second : Derivation level} {rest rest' : List Token}
    (same : first.yield ++ rest = second.yield ++ rest') (stops : Stops (rank level) rest)
    (stops' : Stops (rank level) rest') : first.yield = second.yield ∧ rest = rest' := by
  let depth := max first.yield.length second.yield.length
  have readsFirst := (readable first depth (Nat.le_max_left ..)).reads rest stops
  have readsSecond := (readable second depth (Nat.le_max_right ..)).reads rest' stops'
  rw [same, readsSecond] at readsFirst
  obtain ⟨-, rfl⟩ := Prod.mk.inj (Except.ok.inj readsFirst)
  exact ⟨List.append_cancel_right same, rfl⟩

theorem yield_ne {level : Level} {first second : Derivation level} {token : Token}
    {rest : List Token} (weaker : token.strength < rank level) :
    first.yield ≠ second.yield ++ token :: rest := by
  intro same
  rw [← List.append_nil first.yield] at same
  have ends := yield_unique same (by simp [Stops]) (stops_cons weaker)
  simp at ends

def Spread (level : Level) (bound : Nat) (tokens : List Token) : Prop :=
  ∃ (first : Derivation level) (others : List (Token × Derivation level)),
    tokens = first.yield ++ others.flatMap (fun part => part.1 :: part.2.yield) ∧
      ∀ part ∈ others, part.1.strength = bound

section Spread

variable {level : Level} {bound : Nat}

theorem Chains.spread {β : Type} {depth : Nat} {separators : Token → Option β}
    {first : Derivation level} {links : List (Link β level)}
    (chains : Chains depth separators first links)
    (binds : ∀ token found, separators token = some found → token.strength = bound) :
    Spread level bound (first.yield ++ Link.written links) := by
  refine ⟨first, links.map fun link => (link.separator, link.operand), ?_, ?_⟩
  · simp [Link.written, List.flatMap_map]
  · intro part member
    obtain ⟨link, within, rfl⟩ := List.mem_map.mp member
    exact binds _ _ (chains.separates link within)

theorem spread_equivalence (derivation : Derivation .equivalence) :
    Spread .implication 2 derivation.yield := by
  obtain ⟨first, links, chains, written, -⟩ := readable derivation _ (Nat.le_refl _)
  rw [written]
  exact chains.spread fun _ _ => strength_only

theorem Flattens.spread {depth : Nat} {op : NaryOp} {tokens : List Token} {run : List Tree}
    (flattens : Flattens depth op tokens run) : Spread (operand op) op.kind.precedence tokens := by
  obtain ⟨first, links, chains, rfl, -⟩ := flattens
  exact chains.spread fun _ _ => strength_operator

theorem spread_term {op : NaryOp} (derivation : Derivation (.term op)) :
    Spread (operand op) op.kind.precedence derivation.yield :=
  Flattens.spread (readable derivation _ (Nat.le_refl _))

theorem spread_run {op : NaryOp} (derivation : Derivation (.run op)) :
    Spread (operand op) op.kind.precedence derivation.yield :=
  Flattens.spread (readable derivation _ (Nat.le_refl _))

theorem spread_list {op : NaryOp} (derivation : Derivation (.list op)) :
    Spread (operand op) op.kind.precedence derivation.yield := by
  obtain ⟨run, flattens, -⟩ := readable derivation _ (Nat.le_refl _)
  exact flattens.spread

private theorem stops_others {others : List (Token × Derivation level)}
    (binds : ∀ part ∈ others, part.1.strength = bound) :
    Stops (bound + 1) (others.flatMap fun part => part.1 :: part.2.yield) := by
  have ends : Stops bound [] := by simp [Stops]
  simpa using stops_separated binds ends fun part => part.2.yield

private theorem others_unique (tighter : rank level = bound + 1) {first second : Derivation level}
    {others others' : List (Token × Derivation level)}
    (binds : ∀ part ∈ others, part.1.strength = bound)
    (binds' : ∀ part ∈ others', part.1.strength = bound)
    (same : first.yield ++ others.flatMap (fun part => part.1 :: part.2.yield) =
      second.yield ++ others'.flatMap (fun part => part.1 :: part.2.yield)) :
    others.map (fun part => (part.1, part.2.yield)) =
      others'.map (fun part => (part.1, part.2.yield)) := by
  obtain ⟨-, rests⟩ := yield_unique same (tighter ▸ stops_others binds)
    (tighter ▸ stops_others binds')
  induction others generalizing first second others' with
  | nil =>
      cases others' with
      | nil => rfl
      | cons part more => simp at rests
  | cons part more induction =>
      cases others' with
      | nil => simp at rests
      | cons part' more' =>
          simp only [List.flatMap_cons, List.cons_append, List.cons.injEq] at rests
          obtain ⟨sameToken, rests⟩ := rests
          have later := (List.forall_mem_cons.mp binds).2
          have later' := (List.forall_mem_cons.mp binds').2
          obtain ⟨sameYield, ends⟩ := yield_unique rests (tighter ▸ stops_others later)
            (tighter ▸ stops_others later')
          have sameMore := induction later later' rests ends
          simp [sameToken, sameYield, sameMore]

theorem Spread.last_unique (tighter : rank level = bound + 1) {left left' : List Token}
    (spread : Spread level bound left) (spread' : Spread level bound left') {token token' : Token}
    (binds : token.strength = bound) (binds' : token'.strength = bound)
    {right right' : Derivation level}
    (same : left ++ token :: right.yield = left' ++ token' :: right'.yield) :
    left = left' ∧ token = token' ∧ right.yield = right'.yield := by
  obtain ⟨first, others, rfl, each⟩ := spread
  obtain ⟨second, others', rfl, each'⟩ := spread'
  have all : ∀ part ∈ others ++ [(token, right)], part.1.strength = bound :=
    List.forall_mem_append.mpr ⟨each, List.forall_mem_singleton.mpr binds⟩
  have all' : ∀ part ∈ others' ++ [(token', right')], part.1.strength = bound :=
    List.forall_mem_append.mpr ⟨each', List.forall_mem_singleton.mpr binds'⟩
  have parts := others_unique tighter all all' (by simpa using same)
  rw [List.map_append, List.map_append] at parts
  obtain ⟨sameToken, sameRight⟩ : token = token' ∧ right.yield = right'.yield := by
    simpa using List.append_inj_right' parts rfl
  rw [sameToken, sameRight] at same
  exact ⟨List.append_cancel_right same, sameToken, sameRight⟩

theorem Spread.yield_ne (tighter : rank level = bound + 1) {left : List Token}
    (spread : Spread level bound left) {token : Token} (binds : token.strength = bound)
    {right inner : Derivation level} : inner.yield ≠ left ++ token :: right.yield := by
  intro same
  obtain ⟨first, others, rfl, each⟩ := spread
  have all : ∀ part ∈ others ++ [(token, right)], part.1.strength = bound :=
    List.forall_mem_append.mpr ⟨each, List.forall_mem_singleton.mpr binds⟩
  have none : ∀ part ∈ ([] : List (Token × Derivation level)), part.1.strength = bound := by simp
  have parts := others_unique tighter none all (by simpa using same)
  simp at parts

end Spread

section Lists

variable {op : NaryOp}

theorem strength_token (op : NaryOp) : op.token.strength = op.kind.precedence :=
  strength_operator ((operator_eq_none_iff ..).mpr rfl)

theorem strength_closer {closer : BinaryOp} (closes : closer ∈ closers op) :
    closer.token.strength = op.kind.precedence :=
  strength_operator ((operator_eq_some_iff ..).mpr ⟨closes, rfl⟩)

theorem token_ne_closer {closer : BinaryOp} (closes : closer ∈ closers op) :
    op.token ≠ closer.token := by
  intro same
  have collects := (operator_eq_none_iff op _).mpr same.symm
  rw [(operator_eq_some_iff ..).mpr ⟨closes, rfl⟩] at collects
  cases collects

theorem closer_unique {closer closer' : BinaryOp} (closes : closer ∈ closers op)
    (closes' : closer' ∈ closers op) (same : closer.token = closer'.token) : closer = closer' := by
  have found := (operator_eq_some_iff op _ _).mpr ⟨closes, same.symm⟩
  rw [(operator_eq_some_iff ..).mpr ⟨closes', rfl⟩] at found
  exact (Option.some.inj (Option.some.inj found)).symm

theorem exists_last (run : Derivation (.run op)) :
    ∃ (left : List Token) (right : Derivation (operand op)),
      Spread (operand op) op.kind.precedence left ∧
        run.yield = left ++ op.token :: right.yield := by
  cases run with
  | extend left right => exact ⟨left.yield, right, spread_run left, rfl⟩
  | pair left right => exact ⟨left.yield, right, spread_term left, rfl⟩

theorem run_ne_term (run : Derivation (.run op)) (term : Derivation (.term op)) :
    run.yield ≠ term.yield := by
  obtain ⟨left, right, spread, written⟩ := exists_last run
  rw [written]
  cases term with
  | close closer closes left' right' =>
      intro same
      obtain ⟨-, sameToken, -⟩ := spread.last_unique (rank_operand op) (spread_list left')
        (strength_token op) (strength_closer closes) same
      exact token_ne_closer closes sameToken
  | term inner => exact (spread.yield_ne (rank_operand op) (strength_token op)).symm

end Lists

/-! ## Comparisons and atoms -/

theorem strength_comparison {op : BinaryOp} (compares : op ∈ comparisons) :
    op.token.strength < rank (.list .add) := by
  rw [strength_comparisonOperator ((comparisonOperator_eq_some_iff ..).mpr ⟨compares, rfl⟩)]
  decide

theorem comparison_unique {op op' : BinaryOp} (compares : op ∈ comparisons)
    (compares' : op' ∈ comparisons) (same : op.token = op'.token) : op = op' := by
  have found := (comparisonOperator_eq_some_iff ..).mpr ⟨compares, same.symm⟩
  rw [(comparisonOperator_eq_some_iff ..).mpr ⟨compares', rfl⟩] at found
  exact (Option.some.inj found).symm

theorem getLast_atom (derivation : Derivation .atom) : derivation.yield.getLast? ≠ some .tick := by
  cases derivation with
  | bool value => cases value <;> simp [Derivation.yield]
  | group inner =>
      rw [Derivation.yield, ← List.cons_append, List.getLast?_concat]
      simp
  | literal | name | version => simp [Derivation.yield]

theorem literal_unique {index index' : UInt32}
    (same : Int64.ofNat index.toNat = Int64.ofNat index'.toNat) : index = index' := by
  have values := congrArg Int64.toInt same
  rw [toInt_literal, toInt_literal] at values
  exact UInt32.toNat_inj.mp (Int.ofNat_inj.mp values)

theorem yield_ne_of_lead {level : Level} {token : Token} {rest : List Token}
    (derivation : Derivation level) (weaker : token.lead < rank level) :
    derivation.yield ≠ token :: rest := by
  intro same
  obtain ⟨first, more, begins, lead⟩ := leads derivation
  obtain ⟨rfl, -⟩ := List.cons.inj (same.symm.trans begins)
  omega

theorem unambiguous {level : Level} (derivation other : Derivation level)
    (same : derivation.yield = other.yield) : derivation = other := by
  induction derivation with
  | conditional condition consequent alternative first second third =>
      cases other with
      | conditional condition' consequent' alternative' =>
          obtain ⟨-, same⟩ := List.cons.inj same
          obtain ⟨sameCondition, same⟩ := yield_unique same (stops_cons (by decide))
            (stops_cons (by decide))
          obtain ⟨-, same⟩ := List.cons.inj same
          obtain ⟨sameConsequent, same⟩ := yield_unique same (stops_cons (by decide))
            (stops_cons (by decide))
          obtain ⟨-, same⟩ := List.cons.inj same
          rw [first _ sameCondition, second _ sameConsequent, third _ same]
      | formula inner => exact absurd same.symm (yield_ne_of_lead inner (by decide))
  | formula inner induction =>
      cases other with
      | conditional => exact absurd same (yield_ne_of_lead inner (by decide))
      | formula inner' => rw [induction inner' same]
  | iff left right inductionLeft inductionRight =>
      cases other with
      | iff left' right' =>
          obtain ⟨sameLeft, -, sameRight⟩ := (spread_equivalence left).last_unique rfl
            (spread_equivalence left') rfl rfl same
          rw [inductionLeft _ sameLeft, inductionRight _ sameRight]
      | equivalence inner =>
          exact absurd same.symm ((spread_equivalence left).yield_ne rfl rfl)
  | equivalence inner induction =>
      cases other with
      | iff left right => exact absurd same ((spread_equivalence left).yield_ne rfl rfl)
      | equivalence inner' => rw [induction inner' same]
  | implies left right inductionLeft inductionRight =>
      cases other with
      | implies left' right' =>
          obtain ⟨sameLeft, same⟩ := yield_unique same (stops_cons (by decide))
            (stops_cons (by decide))
          rw [inductionLeft _ sameLeft, inductionRight _ (List.cons.inj same).2]
      | implication inner =>
          have weaker : Token.implies.strength < rank (.list .or) := by decide
          exact absurd same.symm (yield_ne weaker)
  | implication inner induction =>
      cases other with
      | implies left right =>
          have weaker : Token.implies.strength < rank (.list .or) := by decide
          exact absurd same (yield_ne weaker)
      | implication inner' => rw [induction inner' same]
  | several inner induction =>
      cases other with
      | several inner' => rw [induction inner' same]
      | single term => exact absurd same (run_ne_term inner term)
  | single inner induction =>
      cases other with
      | several run => exact absurd same.symm (run_ne_term run inner)
      | single inner' => rw [induction inner' same]
  | @extend op left right inductionLeft inductionRight =>
      cases other with
      | extend left' right' =>
          obtain ⟨sameLeft, -, sameRight⟩ := (spread_run left).last_unique (rank_operand op)
            (spread_run left') (strength_token op) (strength_token op) same
          rw [inductionLeft _ sameLeft, inductionRight _ sameRight]
      | pair left' right' =>
          obtain ⟨sameLeft, -, -⟩ := (spread_run left).last_unique (rank_operand op)
            (spread_term left') (strength_token op) (strength_token op) same
          exact absurd sameLeft (run_ne_term left left')
  | @pair op left right inductionLeft inductionRight =>
      cases other with
      | extend left' right' =>
          obtain ⟨sameLeft, -, -⟩ := (spread_term left).last_unique (rank_operand op)
            (spread_run left') (strength_token op) (strength_token op) same
          exact absurd sameLeft.symm (run_ne_term left' left)
      | pair left' right' =>
          obtain ⟨sameLeft, -, sameRight⟩ := (spread_term left).last_unique (rank_operand op)
            (spread_term left') (strength_token op) (strength_token op) same
          rw [inductionLeft _ sameLeft, inductionRight _ sameRight]
  | @close op closer closes left right inductionLeft inductionRight =>
      cases other with
      | close closer' closes' left' right' =>
          obtain ⟨sameLeft, sameToken, sameRight⟩ := (spread_list left).last_unique
            (rank_operand op) (spread_list left') (strength_closer closes)
            (strength_closer closes') same
          obtain rfl := closer_unique closes closes' sameToken
          rw [inductionLeft _ sameLeft, inductionRight _ sameRight]
      | term inner =>
          exact absurd same.symm
            ((spread_list left).yield_ne (rank_operand op) (strength_closer closes))
  | @term op inner induction =>
      cases other with
      | close closer closes left right =>
          exact absurd same
            ((spread_list left).yield_ne (rank_operand op) (strength_closer closes))
      | term inner' => rw [induction inner' same]
  | not inner induction =>
      cases other with
      | not inner' => rw [induction inner' (List.cons.inj same).2]
      | negation inner' => exact absurd same.symm (yield_ne_of_lead inner' (by decide))
  | negation inner induction =>
      cases other with
      | not inner' => exact absurd same (yield_ne_of_lead inner (by decide))
      | negation inner' => rw [induction inner' same]
  | compare op compares left right inductionLeft inductionRight =>
      cases other with
      | compare op' compares' left' right' =>
          obtain ⟨sameLeft, same⟩ := yield_unique same (stops_cons (strength_comparison compares))
            (stops_cons (strength_comparison compares'))
          obtain ⟨sameToken, sameRight⟩ := List.cons.inj same
          obtain rfl := comparison_unique compares compares' sameToken
          rw [inductionLeft _ sameLeft, inductionRight _ sameRight]
      | comparison inner => exact absurd same.symm (yield_ne (strength_comparison compares))
  | comparison inner induction =>
      cases other with
      | compare op compares left right =>
          exact absurd same (yield_ne (strength_comparison compares))
      | comparison inner' => rw [induction inner' same]
  | minus inner induction =>
      cases other with
      | minus inner' => rw [induction inner' (List.cons.inj same).2]
      | signed inner' => exact absurd same.symm (yield_ne_of_lead inner' (by decide))
  | signed inner induction =>
      cases other with
      | minus inner' => exact absurd same (yield_ne_of_lead inner (by decide))
      | signed inner' => rw [induction inner' same]
  | tick inner induction =>
      cases other with
      | tick inner' => rw [induction inner' (List.append_cancel_right same)]
      | primed inner' =>
          refine absurd ?_ (getLast_atom inner')
          rw [← show _ = inner'.yield from same, Derivation.yield, List.getLast?_concat]
  | primed inner induction =>
      cases other with
      | tick inner' =>
          refine absurd ?_ (getLast_atom inner)
          rw [show inner.yield = _ from same, Derivation.yield, List.getLast?_concat]
      | primed inner' => rw [induction inner' same]
  | bool value =>
      cases other with
      | bool value' => cases value <;> cases value' <;> simp [Derivation.yield] at same ⊢
      | _ => cases value <;> simp [Derivation.yield] at same
  | literal value =>
      cases other with
      | bool value' => cases value' <;> simp [Derivation.yield] at same
      | literal value' => simpa [Derivation.yield] using same
      | _ => simp [Derivation.yield] at same
  | name word =>
      cases other with
      | bool value' => cases value' <;> simp [Derivation.yield] at same
      | name word' => simpa [Derivation.yield] using same
      | _ => simp [Derivation.yield] at same
  | version word index =>
      cases other with
      | bool value' => cases value' <;> simp [Derivation.yield] at same
      | version word' index' =>
          simp only [Derivation.yield, List.cons.injEq, Token.name.injEq, Token.literal.injEq,
            true_and, and_true] at same
          rw [same.1, literal_unique same.2]
      | _ => simp [Derivation.yield] at same
  | group inner induction =>
      cases other with
      | bool value' => cases value' <;> simp [Derivation.yield] at same
      | group inner' => rw [induction inner' (List.append_cancel_right (List.cons.inj same).2)]
      | _ => simp [Derivation.yield] at same

/-- The reader accepts what the grammar derives and returns the tree of the
derivation, and each text has at most one derivation. -/
theorem parse_iff_derivation (tokens : List Token) :
    (∀ tree, parse tokens = .ok tree ↔
      ∃ derivation : Derivation .formula, derivation.yield = tokens ∧ derivation.tree = tree) ∧
    ∀ derivation other : Derivation .formula,
      derivation.yield = tokens → other.yield = tokens → derivation = other := by
  refine ⟨fun tree => ⟨fun parsed => ?_, ?_⟩, fun derivation other first second =>
    unambiguous derivation other (first.trans second.symm)⟩
  · simp only [parse, Outcome.bind_eq_ok_iff, Prod.exists] at parsed
    obtain ⟨found, rest, read, parsed⟩ := parsed
    obtain ⟨derivation, rfl, rfl⟩ := sound_formula _ _ _ _ read
    split at parsed
    next =>
      exact ⟨derivation, (List.append_nil _).symm, (Outcome.pure_eq_ok_iff ..).mp parsed⟩
    next => cases parsed
  · rintro ⟨derivation, rfl, rfl⟩
    have reads := (readable derivation _ (Nat.le_refl _)).reads [] (by simp [Stops])
    have whole : Parser.formula (derivation.yield.length + 1) derivation.yield =
        .ok (derivation.tree, []) := by
      simpa [rank, reader] using reads
    simp [parse, whole]

end Grammar

end SymbolicSafety
