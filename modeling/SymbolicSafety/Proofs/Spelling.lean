import SymbolicSafety.Formula.Message
import SymbolicSafety.Proofs.IntervalArithmetic
import SymbolicSafety.Proofs.Layouts
import SymbolicSafety.Proofs.Lexing
import SymbolicSafety.Proofs.Occurrence

namespace SymbolicSafety

/-! The tokens of a printed formula. Whatever the layout, the text of a formula
is read as the same tokens, unless it holds the least integer, whose digits no
literal can hold. -/

def BinaryOp.token : BinaryOp → Token
  | .implies => .implies
  | .iff => .iff
  | .eq => .equal
  | .neq => .unequal
  | .lt => .less
  | .leq => .lessEqual
  | .gt => .greater
  | .geq => .greaterEqual
  | .sub => .minus
  | .div => .slash
  | .mod => .percent

def NaryOp.token : NaryOp → Token
  | .and => .conjunction
  | .or => .disjunction
  | .add => .plus
  | .mul => .star

namespace Formula

def enclosed (parent : Kind) (operand : Formula) (inner : List Token) : List Token :=
  if operand.needsParens parent then .openParen :: (inner ++ [.closeParen]) else inner

def interposed (separator : Token) : List (List Token) → List Token
  | [] => []
  | first :: rest => first ++ rest.flatMap (separator :: ·)

mutual

@[simp] def spelling : Formula → List Token
  | .bool value => [if value then .trueWord else .falseWord]
  | .int value => if value < 0 then [.minus, .literal (-value)] else [.literal value]
  | .symbol (.current var) => [.name var.name]
  | .symbol (.version var index) => [.name var.name, .atSign, .literal (.ofNat index.toNat)]
  | .unary op operand =>
      let inner := enclosed op.kind operand operand.spelling
      match op with
      | .prime => inner ++ [.tick]
      | .not => .bang :: inner
      | .neg => .minus :: inner
  | .binary op left right =>
      enclosed op.kind left left.spelling ++
        op.token :: enclosed op.kind right right.spelling
  | .nary op operands => interposed op.token (spellings op.kind operands)
  | .ite condition consequent alternative =>
      .ifWord :: (enclosed .ite condition condition.spelling ++
        .thenWord :: (enclosed .ite consequent consequent.spelling ++
          .elseWord :: enclosed .ite alternative alternative.spelling))

def spellings (parent : Kind) : List Formula → List (List Token)
  | [] => []
  | operand :: rest => enclosed parent operand operand.spelling :: spellings parent rest

end

@[simp] theorem spellings_eq_map (parent : Kind) (operands : List Formula) :
    spellings parent operands =
      operands.map fun operand => enclosed parent operand operand.spelling := by
  induction operands with
  | nil => rfl
  | cons head rest induction => rw [spellings, induction, List.map_cons]

@[simp] theorem documents_eq_map (parent : Kind) (operands : List Formula) (depth : Nat) :
    documents parent operands depth =
      operands.map fun operand => enclose parent operand depth operand.document := by
  induction operands with
  | nil => rfl
  | cons head rest induction => rw [documents, induction, List.map_cons]

end Formula

/-! ## Pieces of text as tokens -/

namespace Lexer

open Document (Piece Shows)

def Begins (first : Char → Prop) (pieces : List Piece) : Prop :=
  ∀ characters, Shows pieces characters →
    ∃ head more, characters = head :: more ∧ first head

/-- In every layout the pieces are read as the tokens, or not at all if there is
a fault, when the text behind them begins with a character of the given kind. -/
def Lexes (next : Char → Prop) (pieces : List Piece) (fault : Prop) (found : List Token) : Prop :=
  ∀ characters, Shows pieces characters → ∀ rest : List Char, (∀ head ∈ rest.head?, next head) →
    (fault → ∃ head, tokens (characters ++ rest) = .error (.lexing head)) ∧
    (¬ fault → tokens (characters ++ rest) = (found ++ ·) <$> tokens rest)

def Ends (character : Char) : Prop := isNamePart character = false

instance : DecidablePred Ends := fun character =>
  inferInstanceAs (Decidable (isNamePart character = false))

variable {next next' first : Char → Prop} {pieces more : List Piece} {fault fault' : Prop}
  {found found' : List Token}

/-- If the text behind the pieces begins as `next'` says, then the pieces and
that text begin as `next` says. -/
def Joins (next next' : Char → Prop) (pieces : List Piece) : Prop :=
  ∀ characters, Shows pieces characters → ∀ rest : List Char, (∀ head ∈ rest.head?, next' head) →
    ∀ head ∈ (characters ++ rest).head?, next head

theorem joins_always (pieces : List Piece) : Joins (fun _ => True) next' pieces :=
  fun _ _ _ _ _ _ => trivial

theorem Begins.joins (begins : Begins next pieces) : Joins next next' pieces := by
  intro characters shown rest _ character member
  obtain ⟨head, others, rfl, kind⟩ := begins characters shown
  obtain rfl : head = character := by simpa using member
  exact kind

theorem Begins.append (begins : Begins first pieces) (more : List Piece) :
    Begins first (pieces ++ more) := by
  intro characters shown
  obtain ⟨left, right, rfl, shownLeft, -⟩ := shown.of_append
  obtain ⟨head, others, rfl, kind⟩ := begins left shownLeft
  exact ⟨head, others ++ right, rfl, kind⟩

theorem Begins.mono {first' : Char → Prop} (begins : Begins first pieces)
    (weaker : ∀ character, first character → first' character) : Begins first' pieces := by
  intro characters shown
  obtain ⟨head, others, same, kind⟩ := begins characters shown
  exact ⟨head, others, same, weaker head kind⟩

theorem begins_text {content : String} {head : Char} {others : List Char}
    (spelled : content.toList = head :: others) (kind : first head) :
    Begins first [.text content] := by
  intro characters shown
  cases shown with
  | text content later =>
      rw [spelled]
      exact ⟨head, others ++ _, rfl, kind⟩

theorem begins_gap : Begins (isBlank · = true) [.gap] := by
  intro characters shown
  cases shown with
  | @gap blanks _ _ nonempty blank later =>
      obtain ⟨head, others, rfl⟩ := List.exists_cons_of_ne_nil nonempty
      exact ⟨head, others ++ _, rfl, blank head List.mem_cons_self⟩

private theorem map_append_map (left right : List Token) (outcome : Except ReadError (List Token)) :
    (left ++ ·) <$> (right ++ ·) <$> outcome = ((left ++ right) ++ ·) <$> outcome := by
  cases outcome <;> simp [Functor.map, Except.map]

/-- What is read of adjacent pieces, if the second do not run on into the first. -/
theorem Lexes.append (lexes : Lexes next pieces fault found)
    (lexes' : Lexes next' more fault' found') (joins : Joins next next' more) :
    Lexes next' (pieces ++ more) (fault ∨ fault') (found ++ found') := by
  intro characters shown rest follows
  obtain ⟨left, right, rfl, shownLeft, shownRight⟩ := shown.of_append
  obtain ⟨faulty, faultless⟩ := lexes left shownLeft _ (joins right shownRight rest follows)
  obtain ⟨faulty', faultless'⟩ := lexes' right shownRight rest follows
  rw [List.append_assoc]
  constructor
  · intro either
    by_cases stops : fault
    · exact faulty stops
    · obtain ⟨character, failed⟩ := faulty' (either.resolve_left stops)
      rw [faultless stops, failed]
      exact ⟨character, rfl⟩
  · intro neither
    rw [faultless (mt .inl neither), faultless' (mt .inr neither), map_append_map]

theorem Lexes.mono (lexes : Lexes next pieces fault found)
    (stronger : ∀ character, next' character → next character) :
    Lexes next' pieces fault found :=
  fun characters shown rest follows =>
    lexes characters shown rest fun head member => stronger head (follows head member)

theorem Lexes.append_left (lexes : Lexes next pieces False found)
    (lexes' : Lexes next' more fault' found') (joins : Joins next next' more) :
    Lexes next' (pieces ++ more) fault' (found ++ found') := by
  simpa using lexes.append lexes' joins

theorem lexes_text (token : Token) (lexical : token.Lexical) :
    Lexes (token.runsOn · = false) [.text token.text] False [token] := by
  intro characters shown rest follows
  cases shown with
  | text content later =>
      cases later
      simp [tokens_append_text lexical follows]

theorem Lexes.merge {left right : String}
    (lexes : Lexes next (.text left :: .text right :: pieces) fault found) :
    Lexes next (.text (left ++ right) :: pieces) fault found := by
  intro characters shown
  cases shown with
  | text content later =>
      apply lexes
      simpa using (later.text right).text left

private theorem lexes_blank (pieces : List Piece)
    (blank : ∀ characters, Shows pieces characters →
      ∀ character ∈ characters, isBlank character = true) :
    Lexes (fun _ => True) pieces False [] := by
  intro characters shown rest follows
  rw [tokens_append_of_blank (blank characters shown)]
  cases tokens rest <;> simp [Functor.map, Except.map]

theorem lexes_gap : Lexes (fun _ => True) [.gap] False [] := by
  apply lexes_blank
  intro characters shown
  cases shown with
  | gap nonempty blank later =>
      cases later
      simpa using blank

theorem lexes_space : Lexes (fun _ => True) [.text " "] False [] := by
  apply lexes_blank
  intro characters shown
  cases shown with
  | text content later =>
      cases later
      exact List.all_eq_true.mp (by decide)

/-! ## Marks and words -/

theorem ends_of_isBlank {character : Char} (blank : isBlank character = true) : Ends character := by
  apply Bool.eq_false_iff.mpr
  intro part
  have solid := skipLayout_of_isNamePart part []
  rw [skipLayout, if_neg Bool.false_ne_true, if_pos blank] at solid
  cases solid

theorem notDigit_of_ends {character : Char} (ends : Ends character) :
    character.isDigit = false := by
  apply Bool.eq_false_iff.mpr
  intro digit
  rw [Ends, isNamePart_iff.mpr (.inr digit)] at ends
  cases ends

theorem runsOn_of_isBlank {character : Char} (token : Token) (blank : isBlank character = true) :
    token.runsOn character = false := by
  have notPart : isNamePart character = false := ends_of_isBlank blank
  have notDigit : character.isDigit = false := notDigit_of_ends notPart
  have different (mark : Char) (solid : isBlank mark = false) : character ≠ mark := by
    rintro rfl
    simp [solid] at blank
  cases token with
  | ifWord | thenWord | elseWord | trueWord | falseWord | name => exact notPart
  | literal => exact notDigit
  | bang | less | greater => exact decide_eq_false (different '=' (by decide))
  | equal | lessEqual => exact decide_eq_false (different '>' (by decide))
  | slash => exact decide_eq_false (different '\\' (by decide))
  | _ => rfl

theorem begins_blank (more : List Piece) : Begins Ends (.text " " :: more) := by
  have ends : Ends ' ' := by decide
  exact Begins.append (begins_text rfl ends) more

theorem Lexes.operator {token : Token} (lexical : token.Lexical)
    (lexes : Lexes next pieces fault found) :
    Lexes next (.text " " :: .text token.text :: .gap :: pieces) fault (token :: found) := by
  have afterGap : Lexes next ([.gap] ++ pieces) fault ([] ++ found) :=
    lexes_gap.append_left lexes (joins_always pieces)
  have onGap : Begins (token.runsOn · = false) ([.gap] ++ pieces) :=
    Begins.append (begins_gap.mono fun _ => runsOn_of_isBlank token) pieces
  have afterToken := (lexes_text token lexical).append_left afterGap onGap.joins
  exact lexes_space.append_left afterToken (joins_always _)

theorem Lexes.keyword (token : Token) (lexical : token.Lexical)
    (lexes : Lexes next pieces fault found) :
    Lexes next (.text token.text :: .text " " :: pieces) fault (token :: found) := by
  have afterBlank : Lexes next ([.text " "] ++ pieces) fault ([] ++ found) :=
    lexes_space.append_left lexes (joins_always pieces)
  have onBlank : Begins (token.runsOn · = false) ([.text " "] ++ pieces) :=
    Begins.append (begins_text rfl (runsOn_of_isBlank token (by decide))) pieces
  exact (lexes_text token lexical).append_left afterBlank onBlank.joins

theorem Lexes.chain {α : Type} {token : Token} (lexical : token.Lexical) {parts : List α}
    {written : α → List Piece} {wrong : α → Prop} {read : α → List Token}
    (lexes : Lexes Ends pieces fault found)
    (each : ∀ part ∈ parts, Lexes Ends (written part) (wrong part) (read part)) :
    Lexes Ends
      (pieces ++ parts.flatMap fun part => [.text " ", .text token.text, .gap] ++ written part)
      (fault ∨ ∃ part ∈ parts, wrong part)
      (found ++ parts.flatMap fun part => token :: read part) := by
  induction parts generalizing pieces fault found with
  | nil => simpa using lexes
  | cons part rest induction =>
      obtain ⟨head, others⟩ := List.forall_mem_cons.mp each
      have grown := induction (lexes.append (head.operator lexical) (begins_blank _).joins) others
      simpa [or_assoc] using grown

end Lexer

/-! ## Printed formulas -/

@[simp] theorem BinaryOp.text_token (op : BinaryOp) : op.token.text = op.text := by
  cases op <;> rfl

@[simp] theorem NaryOp.text_token (op : NaryOp) : op.token.text = op.text := by
  cases op <;> rfl

theorem BinaryOp.lexical_token (op : BinaryOp) : op.token.Lexical := by
  cases op <;> trivial

theorem NaryOp.lexical_token (op : NaryOp) : op.token.Lexical := by
  cases op <;> trivial

namespace Formula

open Lexer

/-- Every list operator joins at least two operands. -/
def Branching (formula : Formula) : Prop :=
  ∀ op operands, Occurs (.nary op operands) formula → 2 ≤ operands.length

def Named (formula : Formula) : Prop :=
  ∀ symbol, formula.Mentions symbol → IsName symbol.var.name

def HasLeast (formula : Formula) : Prop := Occurs (.int Int64.minValue) formula

theorem Branching.child {formula child : Formula} (branching : formula.Branching)
    (member : child ∈ formula.children) : child.Branching :=
  fun op operands occurs => branching op operands (.within member occurs)

theorem Named.child {formula child : Formula} (named : formula.Named)
    (member : child ∈ formula.children) : child.Named :=
  fun symbol mentions => named symbol (mentions.of_child member)

theorem hasLeast_iff_exists_child {formula : Formula} (other : formula ≠ .int Int64.minValue) :
    formula.HasLeast ↔ ∃ child ∈ formula.children, child.HasLeast := by
  rw [HasLeast, occurs_iff, or_iff_right other.symm]
  rfl

theorem hasLeast_int (value : Int64) :
    (Formula.int value).HasLeast ↔ value = Int64.minValue := by
  simp [HasLeast, occurs_iff _ (.int value), children, eq_comm]

def Legible (formula : Formula) : Prop :=
  ∀ depth, Begins (· ≠ '=') (formula.document depth).pieces ∧
    Lexes Ends (formula.document depth).pieces formula.HasLeast formula.spelling

theorem Legible.enclosed {operand : Formula} (legible : operand.Legible) (parent : Kind)
    (depth : Nat) :
    Begins (· ≠ '=') (enclose parent operand depth operand.document).pieces ∧
      Lexes Ends (enclose parent operand depth operand.document).pieces operand.HasLeast
        (enclosed parent operand operand.spelling) := by
  unfold enclose Formula.enclosed
  split
  · obtain ⟨-, inner⟩ := legible (depth + 1)
    have opening : Lexes (fun _ => True) [.text "("] False [.openParen] :=
      (lexes_text .openParen trivial).mono fun _ _ => rfl
    have closing : Lexes Ends [.text ")"] False [.closeParen] :=
      (lexes_text .closeParen trivial).mono fun _ _ => rfl
    have onClosing : Begins Ends [.text ")"] := begins_text rfl (by decide)
    have whole := opening.append_left (inner.append closing onClosing.joins) (joins_always _)
    constructor
    · have begins : Begins (· ≠ '=') [.text "("] := begins_text rfl (by decide)
      simpa using begins.append _
    · simpa using whole
  · exact legible depth

theorem ne_equalSign_of_isNamePart {character : Char} (part : isNamePart character = true) :
    character ≠ '=' := by
  rintro rfl
  revert part
  decide

private theorem legible_of_word (token : Token) {formula : Formula} {style : Highlight}
    (lexical : token.Lexical) (ends : ∀ character, Ends character → token.runsOn character = false)
    (starts : ∃ head more, token.text.toList = head :: more ∧ isNamePart head = true)
    (document : ∀ depth, formula.document depth = .styled style token.text)
    (spelling : formula.spelling = [token]) (least : ¬ formula.HasLeast) :
    formula.Legible := by
  intro depth
  obtain ⟨head, more, spelled, part⟩ := starts
  rw [document, spelling, Document.pieces_styled]
  constructor
  · exact begins_text spelled (ne_equalSign_of_isNamePart part)
  · simpa [least] using (lexes_text token lexical).mono ends

theorem legible_bool (value : Bool) : (Formula.bool value).Legible := by
  have least : ¬ (Formula.bool value).HasLeast := by
    simp [hasLeast_iff_exists_child, children]
  cases value with
  | true =>
      exact legible_of_word .trueWord trivial (fun _ ends => ends)
        ⟨'t', "rue".toList, rfl, by decide⟩ (fun _ => rfl) rfl least
  | false =>
      exact legible_of_word .falseWord trivial (fun _ ends => ends)
        ⟨'f', "alse".toList, rfl, by decide⟩ (fun _ => rfl) rfl least

private theorem exists_repr_eq_cons (number : Nat) :
    ∃ head others, number.repr.toList = head :: others ∧ head.isDigit = true := by
  have nonempty : Nat.toDigits 10 number ≠ [] := Nat.toDigits_ne_nil
  obtain ⟨head, others, digits⟩ := List.exists_cons_of_ne_nil nonempty
  refine ⟨head, others, by rw [Nat.toList_repr, digits], ?_⟩
  exact Nat.isDigit_of_mem_toDigits (by decide) (by decide) (digits ▸ List.mem_cons_self)

private theorem lexes_number (number : Nat) {fault : Prop} {value : Int64}
    (faulty : fault → Word.ofInt? number = none)
    (fits : ¬ fault → Word.ofInt? number = some value) :
    Lexes Ends [.text number.repr] fault [.literal value] := by
  intro characters shown rest follows
  cases shown with
  | text content later =>
      cases later
      have ends : ∀ character ∈ rest.head?, character.isDigit = false := by
        intro character member
        exact notDigit_of_ends (follows character member)
      rw [List.append_nil]
      constructor
      · intro wrong
        obtain ⟨first, -, refused⟩ := tokens_number_error ends (faulty wrong)
        exact ⟨some first, refused⟩
      · intro right
        exact tokens_number ends (fits right)

theorem toInt_neg_of_ne_minValue {value : Int64} (inside : value ≠ Int64.minValue) :
    (-value).toInt = -value.toInt := by
  have bounds := And.intro value.le_toInt value.toInt_lt
  have different : value.toInt ≠ -2 ^ 63 :=
    mt (fun equal : value.toInt = Int64.minValue.toInt => Int64.toInt_inj.mp equal) inside
  rw [Int64.toInt_neg, Int.bmod]
  omega

theorem legible_int (value : Int64) : (Formula.int value).Legible := by
  intro depth
  have least := hasLeast_int value
  by_cases negative : value < 0
  · have below : value.toInt < 0 := Int64.lt_iff_toInt_lt.mp negative
    have written : value.toInt.repr = "-" ++ (-value.toInt).toNat.repr := by
      rw [Int.repr_eq_if, if_neg (by omega)]
    have minus : Lexes (fun _ => True) [.text "-"] False [.minus] :=
      (lexes_text .minus trivial).mono fun _ _ => rfl
    have digits : Lexes Ends [.text (-value.toInt).toNat.repr] (value = Int64.minValue)
        [.literal (-value)] := by
      apply lexes_number
      · rintro rfl
        decide
      · intro inside
        rw [Word.ofInt?_eq_some_iff, toInt_neg_of_ne_minValue inside]
        omega
    have spelled : value.toInt.repr.toList = '-' :: (-value.toInt).toNat.repr.toList := by
      rw [written, String.toList_append]
      rfl
    have onMinus : Begins (· ≠ '=') [.text value.toInt.repr] :=
      begins_text spelled (by decide)
    constructor
    · simpa [document] using onMinus
    · simpa [document, spelling, negative, written, least] using
        (minus.append_left digits (joins_always _)).merge
  · have above : 0 ≤ value.toInt := Int64.le_iff_toInt_le.mp (Int64.not_lt.mp negative)
    have written : value.toInt.repr = value.toInt.toNat.repr := by
      rw [Int.repr_eq_if, if_pos above]
    have digits : Lexes Ends [.text value.toInt.toNat.repr] (value = Int64.minValue)
        [.literal value] := by
      apply lexes_number
      · rintro rfl
        exact absurd above (by decide)
      · intro _
        rw [Word.ofInt?_eq_some_iff, Int.toNat_of_nonneg above]
    obtain ⟨head, others, spelled, digit⟩ := exists_repr_eq_cons value.toInt.toNat
    have onDigit : Begins (· ≠ '=') [.text value.toInt.toNat.repr] :=
      begins_text spelled (ne_equalSign_of_isNamePart (isNamePart_iff.mpr (.inr digit)))
    constructor
    · simpa [document, written] using onDigit
    · simpa [document, spelling, negative, written, least] using digits

theorem legible_symbol (symbol : Symbol) (named : IsName symbol.var.name) :
    (Formula.symbol symbol).Legible := by
  have least : ¬ (Formula.symbol symbol).HasLeast := by
    simp [hasLeast_iff_exists_child, children]
  obtain ⟨head, more, spelled, start, -⟩ := named.spelled
  have part : isNamePart head = true := isNamePart_iff.mpr (.inl start)
  cases symbol with
  | current var =>
      exact legible_of_word (.name var.name) named (fun _ ends => ends)
        ⟨head, more, spelled, part⟩ (fun _ => rfl) rfl least
  | version var index =>
      intro depth
      have onSign : Begins Ends [.text ("@" ++ index.toNat.repr)] :=
        begins_text (String.toList_append ..) (by decide : Ends '@')
      have sign : Lexes (fun _ => True) [.text "@"] False [.atSign] :=
        (lexes_text .atSign trivial).mono fun _ _ => rfl
      have number : Lexes Ends [.text index.toNat.repr] False [.literal (.ofNat index.toNat)] := by
        apply lexes_number
        · exact False.elim
        · intro _
          rw [Word.ofInt?_eq_some_iff]
          exact Int64.toInt_ofNat_of_lt (Nat.lt_trans index.toNat_lt (by decide))
      have name : Lexes Ends [.text var.name] False [.name var.name] :=
        (lexes_text (.name var.name) named).mono fun _ ends => ends
      constructor
      · have onName : Begins (· ≠ '=') [.text var.name] :=
          begins_text spelled (ne_equalSign_of_isNamePart part)
        simpa [document] using onName.append _
      · simpa [document, spelling, least] using
          name.append_left (sign.append_left number (joins_always _)).merge onSign.joins

theorem legible_unary (op : UnaryOp) {operand : Formula} (legible : operand.Legible) :
    (Formula.unary op operand).Legible := by
  intro depth
  have least : (Formula.unary op operand).HasLeast ↔ operand.HasLeast := by
    simp [hasLeast_iff_exists_child, children]
  obtain ⟨begins, inner⟩ := legible.enclosed op.kind depth
  cases op with
  | prime =>
      have tick : Lexes Ends [.text "'"] False [.tick] :=
        (lexes_text .tick trivial).mono fun _ _ => rfl
      have onTick : Begins Ends [.text "'"] := begins_text rfl (by decide)
      constructor
      · simpa [document] using begins.append _
      · simpa [document, spelling, least] using inner.append tick onTick.joins
  | not =>
      have bang : Lexes (· ≠ '=') [.text "!"] False [.bang] :=
        (lexes_text .bang trivial).mono fun _ => decide_eq_false
      have onBang : Begins (· ≠ '=') [.text "!"] := begins_text rfl (by decide)
      constructor
      · simpa [document] using onBang.append _
      · simpa [document, spelling, least] using
          bang.append_left inner begins.joins
  | neg =>
      have minus : Lexes (fun _ => True) [.text "-"] False [.minus] :=
        (lexes_text .minus trivial).mono fun _ _ => rfl
      have onMinus : Begins (· ≠ '=') [.text "-"] := begins_text rfl (by decide)
      constructor
      · simpa [document] using onMinus.append _
      · simpa [document, spelling, least] using minus.append_left inner (joins_always _)

theorem legible_binary (op : BinaryOp) {left right : Formula} (legibleLeft : left.Legible)
    (legibleRight : right.Legible) : (Formula.binary op left right).Legible := by
  intro depth
  have least : (Formula.binary op left right).HasLeast ↔ left.HasLeast ∨ right.HasLeast := by
    simp [hasLeast_iff_exists_child, children]
  obtain ⟨begins, first⟩ := legibleLeft.enclosed op.kind depth
  obtain ⟨-, second⟩ := legibleRight.enclosed op.kind depth
  constructor
  · simpa [document] using begins.append _
  · simpa [document, spelling, least] using
      first.append (second.operator op.lexical_token) (begins_blank _).joins

theorem legible_nary (op : NaryOp) {first : Formula} {rest : List Formula}
    (legible : ∀ operand ∈ first :: rest, operand.Legible) :
    (Formula.nary op (first :: rest)).Legible := by
  intro depth
  have least : (Formula.nary op (first :: rest)).HasLeast ↔
      first.HasLeast ∨ ∃ operand ∈ rest, operand.HasLeast := by
    simp [hasLeast_iff_exists_child, children]
  obtain ⟨legibleFirst, legibleRest⟩ := List.forall_mem_cons.mp legible
  obtain ⟨begins, start⟩ := legibleFirst.enclosed op.kind depth
  have whole := start.chain op.lexical_token fun operand member =>
    ((legibleRest operand member).enclosed op.kind depth).2
  constructor
  · simpa [document] using begins.append _
  · simpa [document, spelling, interposed, least, List.flatMap_map] using whole

theorem legible_ite {condition consequent alternative : Formula} (first : condition.Legible)
    (second : consequent.Legible) (third : alternative.Legible) :
    (Formula.ite condition consequent alternative).Legible := by
  intro depth
  have least : (Formula.ite condition consequent alternative).HasLeast ↔
      condition.HasLeast ∨ consequent.HasLeast ∨ alternative.HasLeast := by
    simp [hasLeast_iff_exists_child, children]
  obtain ⟨-, first⟩ := first.enclosed .ite depth
  obtain ⟨-, second⟩ := second.enclosed .ite depth
  obtain ⟨-, third⟩ := third.enclosed .ite depth
  have onGap (more : List Document.Piece) : Begins Ends ([.gap] ++ more) :=
    Begins.append (begins_gap.mono fun _ => ends_of_isBlank) more
  have inElse := lexes_gap.append_left (third.keyword .elseWord trivial) (joins_always _)
  have fromThen := (second.append inElse (onGap _).joins).keyword .thenWord trivial
  have inThen := lexes_gap.append_left fromThen (joins_always _)
  have whole := (first.append inThen (onGap _).joins).keyword .ifWord trivial
  constructor
  · have begins : Begins (· ≠ '=') [.text "if"] := begins_text rfl (by decide)
    simpa [document] using begins.append _
  · simpa [document, spelling, least, Token.text] using whole

/-- However it is laid out, a formula is read as its tokens. -/
theorem legible {formula : Formula} (branching : formula.Branching) (named : formula.Named) :
    formula.Legible := by
  induction formula with
  | bool value => exact legible_bool value
  | int value => exact legible_int value
  | symbol symbol => exact legible_symbol symbol (named symbol .here)
  | unary op operand induction =>
      have member : operand ∈ (Formula.unary op operand).children := by simp [children]
      exact legible_unary op (induction (branching.child member) (named.child member))
  | binary op left right inductionLeft inductionRight =>
      have first : left ∈ (Formula.binary op left right).children := by simp [children]
      have second : right ∈ (Formula.binary op left right).children := by simp [children]
      exact legible_binary op (inductionLeft (branching.child first) (named.child first))
        (inductionRight (branching.child second) (named.child second))
  | nary op operands induction =>
      have several := branching op operands .here
      have each : ∀ operand ∈ operands, operand.Legible := fun operand member =>
        induction operand member (branching.child member) (named.child member)
      cases operands with
      | nil => simp at several
      | cons first rest => exact legible_nary op each
  | ite condition consequent alternative first second third =>
      have legibleChild (child : Formula)
          (member : child ∈ (Formula.ite condition consequent alternative).children)
          (induction : child.Branching → child.Named → child.Legible) : child.Legible :=
        induction (branching.child member) (named.child member)
      exact legible_ite (legibleChild condition (by simp [children]) first)
        (legibleChild consequent (by simp [children]) second)
        (legibleChild alternative (by simp [children]) third)

end Formula

end SymbolicSafety
