import SymbolicSafety.Grammar.Parser
import SymbolicSafety.Proofs.Sorting
import SymbolicSafety.Proofs.Spelling

namespace SymbolicSafety

/-! What may stand between tokens. Tokens that are kept apart by white space or
comments are read one by one, whatever the gaps between them look like and
whatever the comments say. -/

namespace Lexer

/-! ## Gaps -/

/-- Any mix of white space and comments, each of which ends with its line. -/
inductive IsGap : List Char → Prop where
  | nil : IsGap []
  | blank {character : Char} {rest : List Char} :
      isBlank character = true → IsGap rest → IsGap (character :: rest)
  | comment {body rest : List Char} :
      '\n' ∉ body → IsGap rest → IsGap (';' :: (body ++ '\n' :: rest))

/-- What may stand behind the last token, where a comment may also end with the
text. -/
inductive IsClosing : List Char → Prop where
  | gap {gap : List Char} : IsGap gap → IsClosing gap
  | comment {gap body : List Char} : IsGap gap → '\n' ∉ body → IsClosing (gap ++ ';' :: body)

inductive Spaced : List Token → List Char → Prop where
  | last (token : Token) {closing : List Char} :
      IsClosing closing → Spaced [token] (token.text.toList ++ closing)
  | next (token : Token) {tokens : List Token} {gap rest : List Char} :
      IsGap gap → gap ≠ [] → Spaced tokens rest →
      Spaced (token :: tokens) (token.text.toList ++ (gap ++ rest))

/-- The text consists of the tokens, with any gap in front of them. -/
def LaidOut (tokens : List Token) (text : List Char) : Prop :=
  ∃ gap rest, IsGap gap ∧ Spaced tokens rest ∧ text = gap ++ rest

/-! ## Skipping gaps -/

variable {gap body closing text : List Char} {found : List Token}

theorem skipLayout_comment (inLine : '\n' ∉ body) (rest : List Char) :
    skipLayout true (body ++ rest) = skipLayout true rest := by
  induction body with
  | nil => rfl
  | cons head more induction =>
      obtain ⟨different, inMore⟩ := not_or.mp (mt List.mem_cons.mpr inLine)
      rw [List.cons_append, skipLayout, if_pos rfl, decide_eq_true (Ne.symm different)]
      exact induction inMore

theorem skipLayout_semicolon (rest : List Char) :
    skipLayout false (';' :: rest) = skipLayout true rest := by
  rw [skipLayout, if_neg Bool.false_ne_true, if_neg (by decide), if_pos rfl]

theorem IsGap.skipLayout_append (isGap : IsGap gap) (rest : List Char) :
    skipLayout false (gap ++ rest) = skipLayout false rest := by
  induction isGap with
  | nil => rfl
  | blank blank _ induction =>
      rw [List.cons_append, skipLayout, if_neg Bool.false_ne_true, if_pos blank]
      exact induction
  | comment inLine _ induction =>
      rw [List.cons_append, skipLayout_semicolon, List.append_assoc, skipLayout_comment inLine,
        List.cons_append, skipLayout, if_pos rfl]
      exact induction

theorem IsGap.tokens_append (isGap : IsGap gap) (rest : List Char) :
    tokens (gap ++ rest) = tokens rest :=
  tokens_congr (isGap.skipLayout_append rest)

theorem IsClosing.tokens_eq (closes : IsClosing closing) : tokens closing = .ok [] := by
  refine tokens_of_nothing ?_
  cases closes with
  | gap isGap => simpa [skipLayout] using isGap.skipLayout_append []
  | @comment gap body isGap inLine =>
      rw [isGap.skipLayout_append, skipLayout_semicolon]
      simpa [skipLayout] using skipLayout_comment inLine []

/-! ## Tokens in front of gaps -/

theorem runsOn_semicolon (token : Token) : token.runsOn ';' = false := by
  cases token <;> rfl

theorem IsGap.runsOn_head (isGap : IsGap gap) (token : Token) :
    ∀ character ∈ gap.head?, token.runsOn character = false := by
  intro character member
  cases isGap with
  | nil => cases member
  | blank blank _ => exact Option.some.inj member ▸ runsOn_of_isBlank token blank
  | comment => exact Option.some.inj member ▸ runsOn_semicolon token

theorem IsClosing.runsOn_head (closes : IsClosing closing) (token : Token) :
    ∀ character ∈ closing.head?, token.runsOn character = false := by
  cases closes with
  | gap isGap => exact isGap.runsOn_head token
  | @comment gap body isGap inLine =>
      cases gap with
      | nil => exact fun character member => Option.some.inj member ▸ runsOn_semicolon token
      | cons => exact isGap.runsOn_head token

theorem Spaced.tokens_eq (spaced : Spaced found text) (lexical : ∀ token ∈ found, token.Lexical) :
    tokens text = .ok found := by
  induction spaced with
  | last token closes =>
      rw [tokens_append_text (List.forall_mem_singleton.mp lexical) (closes.runsOn_head token),
        closes.tokens_eq]
      rfl
  | @next token _ gap rest isGap nonempty _ induction =>
      obtain ⟨first, others⟩ := List.forall_mem_cons.mp lexical
      -- The gap is not empty, so that the token does not run on into the next one.
      have ends : ∀ character ∈ (gap ++ rest).head?, token.runsOn character = false := by
        obtain ⟨head, more, rfl⟩ := List.exists_cons_of_ne_nil nonempty
        exact isGap.runsOn_head token
      rw [tokens_append_text first ends, isGap.tokens_append, induction others]
      rfl

theorem Spaced.ne_nil (spaced : Spaced found text) : found ≠ [] := by
  cases spaced <;> simp

/-- Tokens that are kept apart by gaps are read as just these tokens, and a
formula is read from them alone. -/
theorem tokenize_of_laidOut {found : List Token} {text : String}
    (lexical : ∀ token ∈ found, token.Lexical) (laidOut : LaidOut found text.toList) :
    tokenize text = .ok found ∧
      ∀ scope, Formula.read scope text = Parser.parse found >>= Tree.resolve scope := by
  obtain ⟨gap, rest, isGap, spaced, written⟩ := laidOut
  have read : tokens text.toList = .ok found := by
    rw [written, isGap.tokens_append, spaced.tokens_eq lexical]
  have tokenized : tokenize text = .ok found := by
    simp [tokenize, read, Outcome.ok_bind, spaced.ne_nil]
  refine ⟨tokenized, fun scope => ?_⟩
  simp only [Formula.read, tokenized, Outcome.ok_bind]

/-! ## A text with comments -/

def commented : String := "; x <\n\tx;=>\n<= ;;\r if\n -\u3000 7 /\\\nthen0 ; @"

theorem tokenize_of_laidOut_commented :
    let found : List Token :=
      [.name "x", .lessEqual, .minus, .literal 7, .conjunction, .name "then0"]
    (∀ token ∈ found, token.Lexical) ∧ LaidOut found commented.toList ∧
      tokenize commented = .ok found ∧
      ∀ scope, Formula.read scope commented = Parser.parse found >>= Tree.resolve scope := by
  intro found
  have lexical : ∀ token ∈ found, token.Lexical := by
    have nameX : IsName "x" := ⟨⟨'x', [], rfl, by decide, by simp⟩, rfl⟩
    have nameThen : IsName "then0" :=
      ⟨⟨'t', ['h', 'e', 'n', '0'], rfl, by decide, List.all_eq_true.mp rfl⟩, rfl⟩
    simp only [found, List.forall_mem_cons, Token.Lexical]
    exact ⟨nameX, trivial, trivial, by decide, trivial, nameThen, by simp⟩
  have laidOut : LaidOut found commented.toList := by
    have blank (character : Char) (isBlank : isBlank character = true) : IsGap [character] :=
      .blank isBlank .nil
    have first : IsGap "; x <\n\t".toList :=
      @IsGap.comment [' ', 'x', ' ', '<'] _ (by decide) (blank '\t' (by decide))
    have second : IsGap ";=>\n".toList := @IsGap.comment ['=', '>'] _ (by decide) .nil
    have third : IsGap " ;;\r if\n ".toList := .blank (by decide)
      (@IsGap.comment [';', '\r', ' ', 'i', 'f'] _ (by decide) (blank ' ' (by decide)))
    have fourth : IsGap "\u3000 ".toList := .blank (by decide) (blank ' ' (by decide))
    have last : IsClosing " ; @".toList :=
      @IsClosing.comment _ [' ', '@'] (blank ' ' (by decide)) (by decide)
    exact ⟨_, _, first, .next (.name "x") second (by simp) (.next .lessEqual third (by simp)
      (.next .minus fourth (by simp) (.next (.literal 7) (blank ' ' (by decide)) (by simp)
        (.next .conjunction (blank '\n' (by decide)) (by simp) (.last (.name "then0") last))))),
      rfl⟩
  exact ⟨lexical, laidOut, tokenize_of_laidOut lexical laidOut⟩

end Lexer

end SymbolicSafety
