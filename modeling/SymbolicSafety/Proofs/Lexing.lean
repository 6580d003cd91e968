import SymbolicSafety.Grammar.Lexer

namespace SymbolicSafety

/-! How a written token is read again. A token is taken off the front of a text
whenever the character behind it does not run on into it, and white space in
front of a token does not matter. -/

namespace Lexer

variable {text rest remaining : List Char} {character : Char} {found : Token} {error : ReadError}

/-! ## One token after another -/

theorem tokens_of_nothing (nothing : skipLayout false text = []) : tokens text = .ok [] := by
  rw [tokens]
  split
  next => rfl
  next solid => simp [nothing] at solid

theorem tokens_of_token (solid : skipLayout false text = character :: rest)
    (read : token character rest = .ok (found, remaining)) :
    tokens text = (found :: ·) <$> tokens remaining := by
  rw [tokens]
  split
  next nothing => simp [nothing] at solid
  next solid' =>
    obtain ⟨rfl, rfl⟩ := List.cons.inj (solid.symm.trans solid')
    split
    next failed => simp [read] at failed
    next read' =>
      obtain ⟨rfl, rfl⟩ := Prod.mk.inj (Except.ok.inj (read.symm.trans read'))
      cases tokens remaining <;> rfl

theorem tokens_of_error (solid : skipLayout false text = character :: rest)
    (failed : token character rest = .error error) : tokens text = .error error := by
  rw [tokens]
  split
  next nothing => simp [nothing] at solid
  next solid' =>
    obtain ⟨rfl, rfl⟩ := List.cons.inj (solid.symm.trans solid')
    split
    next failed' => rw [Except.error.inj (failed.symm.trans failed')]
    next read => simp [failed] at read

theorem tokens_congr {other : List Char}
    (same : skipLayout false text = skipLayout false other) : tokens text = tokens other := by
  cases solid : skipLayout false text with
  | nil => rw [tokens_of_nothing solid, tokens_of_nothing (same ▸ solid)]
  | cons character rest =>
      cases read : token character rest with
      | error error => rw [tokens_of_error solid read, tokens_of_error (same ▸ solid) read]
      | ok found =>
          exact (tokens_of_token solid read).trans (tokens_of_token (same ▸ solid) read).symm

theorem tokens_append_of_blank {blanks : List Char}
    (blank : ∀ character ∈ blanks, isBlank character = true) (rest : List Char) :
    tokens (blanks ++ rest) = tokens rest := by
  apply tokens_congr
  induction blanks with
  | nil => rfl
  | cons head more induction =>
      obtain ⟨blankHead, blankMore⟩ := List.forall_mem_cons.mp blank
      rw [List.cons_append, skipLayout, if_neg Bool.false_ne_true, if_pos blankHead]
      exact induction blankMore

/-! ## Characters of words -/

theorem code_of_isDigit (digit : character.isDigit = true) :
    48 ≤ character.toNat ∧ character.toNat ≤ 57 := by
  simp only [Char.isDigit, Bool.and_eq_true, decide_eq_true_eq, ge_iff_le,
    UInt32.le_iff_toNat_le] at digit
  exact digit

theorem code_of_isNameStart (start : isNameStart character = true) :
    65 ≤ character.toNat ∧ character.toNat ≤ 122 := by
  have ranges : ((decide (65 ≤ character.val ∧ character.val ≤ 90) ||
      (decide (97 ≤ character.val) && decide (character.val ≤ 122))) ||
      decide (character = '_')) = true := start
  simp only [Bool.or_eq_true, Bool.and_eq_true, decide_eq_true_eq,
    UInt32.le_iff_toNat_le] at ranges
  rcases ranges with (upper | lower) | rfl
  · exact ⟨upper.1, Nat.le_trans upper.2 (by decide)⟩
  · exact ⟨Nat.le_trans (by decide) lower.1, lower.2⟩
  · decide

theorem isNamePart_iff :
    isNamePart character = true ↔ isNameStart character = true ∨ character.isDigit = true := by
  simp only [isNamePart, isNameStart, Char.isAlphanum, Bool.or_eq_true, decide_eq_true_eq]
  exact or_right_comm

theorem isNameStart_of_isDigit (digit : character.isDigit = true) :
    isNameStart character = false := by
  have code := code_of_isDigit digit
  apply Bool.eq_false_iff.mpr
  intro start
  have letter := code_of_isNameStart start
  omega

theorem skipLayout_of_solid (solid : isBlank character = false) (plain : character ≠ ';')
    (rest : List Char) : skipLayout false (character :: rest) = character :: rest := by
  simp [skipLayout, solid, plain]

theorem skipLayout_of_isNamePart (part : isNamePart character = true) (rest : List Char) :
    skipLayout false (character :: rest) = character :: rest := by
  have code : (48 ≤ character.toNat ∧ character.toNat ≤ 57) ∨
      (65 ≤ character.toNat ∧ character.toNat ≤ 122) :=
    (isNamePart_iff.mp part).symm.imp code_of_isDigit code_of_isNameStart
  apply skipLayout_of_solid
  · simp only [isBlank, Bool.or_eq_false_iff, Bool.and_eq_false_iff, decide_eq_false_iff_not]
    omega
  · rintro rfl
    revert code
    decide

private theorem takeWhile_append_of_ends {keep : Char → Bool} {run : List Char}
    (all : ∀ character ∈ run, keep character = true)
    (ends : ∀ character ∈ rest.head?, keep character = false) :
    (run ++ rest).takeWhile keep = run ∧ (run ++ rest).dropWhile keep = rest := by
  rw [List.takeWhile_append_of_pos all, List.dropWhile_append_of_pos all]
  cases rest with
  | nil => simp
  | cons head more => simp [ends head rfl]

/-! ## Words -/

theorem token_word {part : List Char} (start : isNameStart character = true)
    (parts : ∀ character ∈ part, isNamePart character = true)
    (ends : ∀ character ∈ rest.head?, isNamePart character = false) :
    token character (part ++ rest) =
      .ok (.ofWord (String.ofList (character :: part)), rest) := by
  obtain ⟨taken, dropped⟩ := takeWhile_append_of_ends parts ends
  rw [token, if_pos start, taken, dropped]

theorem tokens_word {part : List Char} (start : isNameStart character = true)
    (parts : ∀ character ∈ part, isNamePart character = true)
    (ends : ∀ character ∈ rest.head?, isNamePart character = false) :
    tokens (character :: part ++ rest) =
      (.ofWord (String.ofList (character :: part)) :: ·) <$> tokens rest :=
  tokens_of_token (skipLayout_of_isNamePart (isNamePart_iff.mpr (.inl start)) _)
    (token_word start parts ends)

/-! ## Numbers -/

theorem digitsValue_toDigits (number : Nat) : digitsValue (Nat.toDigits 10 number) = number := by
  rw [digitsValue, ← Nat.ofDigitChars_eq_foldl, Nat.ofDigitChars_ten_toDigits]

theorem exists_toDigits_eq_cons {number : Nat} (positive : 0 < number) :
    ∃ first more, Nat.toDigits 10 number = first :: more ∧ first ≠ '0' := by
  induction number using Nat.strongRecOn with
  | ind number induction =>
      by_cases small : number < 10
      · refine ⟨number.digitChar, [], Nat.toDigits_of_lt_base small, ?_⟩
        have nonzero : ∀ digit < 10, 0 < digit → digit.digitChar ≠ '0' := by decide
        exact nonzero number small positive
      · obtain ⟨first, more, digits, nonzero⟩ :=
          induction (number / 10) (by omega) (by omega)
        refine ⟨first, more ++ [(number % 10).digitChar], ?_, nonzero⟩
        rw [Nat.toDigits_of_base_le (by decide) (by omega), digits, List.cons_append]

section Numbers

variable {number : Nat} (ends : ∀ character ∈ rest.head?, character.isDigit = false)
include ends

private theorem token_digits (positive : 0 < number) :
    ∃ first more, Nat.toDigits 10 number = first :: more ∧ first.isDigit = true ∧
      (∀ value, Word.ofInt? number = some value →
        token first (more ++ rest) = .ok (.literal value, rest)) ∧
      (Word.ofInt? number = none →
        token first (more ++ rest) = .error (.lexing (some first))) := by
  obtain ⟨first, more, digits, nonzero⟩ := exists_toDigits_eq_cons positive
  have all : ∀ character ∈ first :: more, character.isDigit = true := by
    intro character member
    exact Nat.isDigit_of_mem_toDigits (by decide) (by decide) (digits ▸ member)
  obtain ⟨digit, others⟩ := List.forall_mem_cons.mp all
  obtain ⟨taken, dropped⟩ := takeWhile_append_of_ends others ends
  have value : digitsValue (first :: more) = number := by rw [← digits, digitsValue_toDigits]
  refine ⟨first, more, digits, digit, ?_, ?_⟩
  · intro word fits
    simp [token, isNameStart_of_isDigit digit, nonzero, digit, taken, dropped, value, fits]
  · intro large
    simp [token, isNameStart_of_isDigit digit, nonzero, digit, taken, value, large]

theorem tokens_number {value : Int64} (fits : Word.ofInt? number = some value) :
    tokens (number.repr.toList ++ rest) = (.literal value :: ·) <$> tokens rest := by
  rw [Nat.toList_repr]
  rcases Nat.eq_zero_or_pos number with rfl | positive
  · obtain rfl : 0 = value := Option.some.inj fits
    rw [Nat.toDigits_zero]
    exact tokens_of_token (skipLayout_of_isNamePart (by decide) rest) rfl
  · obtain ⟨first, more, digits, digit, read, -⟩ := token_digits ends positive
    rw [digits]
    exact tokens_of_token (skipLayout_of_isNamePart (isNamePart_iff.mpr (.inr digit)) _)
      (read value fits)

theorem tokens_number_error (large : Word.ofInt? number = none) :
    ∃ first, number.repr.toList.head? = some first ∧
      tokens (number.repr.toList ++ rest) = .error (.lexing (some first)) := by
  have positive : 0 < number := by
    apply Nat.pos_of_ne_zero
    rintro rfl
    cases large
  obtain ⟨first, more, digits, digit, -, refused⟩ := token_digits ends positive
  rw [Nat.toList_repr, digits]
  exact ⟨first, rfl, tokens_of_error
    (skipLayout_of_isNamePart (isNamePart_iff.mpr (.inr digit)) _) (refused large)⟩

end Numbers

end Lexer

/-! ## Every token -/

structure Lexer.IsName (word : String) : Prop where
  spelled : ∃ first part, word.toList = first :: part ∧ isNameStart first = true ∧
    ∀ character ∈ part, isNamePart character = true
  free : Token.ofWord word = .name word

namespace Token

/-- The token can be written: names are identifiers, and literals have no sign. -/
def Lexical : Token → Prop
  | .name word => Lexer.IsName word
  | .literal value => 0 ≤ value
  | _ => True

/-- Whether a character right behind the token would be read as a part of it. -/
def runsOn : Token → Char → Bool
  | .ifWord | .thenWord | .elseWord | .trueWord | .falseWord | .name _ => Lexer.isNamePart
  | .literal _ => Char.isDigit
  | .bang | .less | .greater => (· = '=')
  | .equal | .lessEqual => (· = '>')
  | .slash => (· = '\\')
  | _ => fun _ => false

end Token

namespace Lexer

private theorem tokens_mark {found : Token} {remaining : List Char} (first : Char)
    (rest : List Char)
    (solid : isBlank first = false ∧ first ≠ ';' ∧ isNamePart first = false)
    (read : operator first rest = .ok (found, remaining)) :
    tokens (first :: rest) = (found :: ·) <$> tokens remaining := by
  obtain ⟨visible, plain, apart⟩ := solid
  have notStart : isNameStart first = false ∧ first.isDigit = false := by
    rw [← Bool.or_eq_false_iff, ← apart, Bool.eq_iff_iff, Bool.or_eq_true, isNamePart_iff]
  have notZero : first ≠ '0' := by
    rintro rfl
    exact absurd apart (by decide)
  refine tokens_of_token (skipLayout_of_solid visible plain _) ?_
  simp [token, notStart, notZero, read]

/-- A mark is read alone at the end of the text, and before anything but the one
character that would make it longer. -/
private theorem read_alone {found : Token} {longer : Char} {rest : List Char}
    (read : List Char → Except ReadError (Token × List Char))
    (last : read [] = .ok (found, []))
    (before : ∀ next rest, next ≠ longer → read (next :: rest) = .ok (found, next :: rest))
    (ends : ∀ character ∈ rest.head?, decide (character = longer) = false) :
    read rest = .ok (found, rest) := by
  cases rest with
  | nil => exact last
  | cons next rest => exact before next rest (of_decide_eq_false (ends next rfl))

/-- A token is read back from its text. -/
theorem tokens_append_text {found : Token} {rest : List Char} (lexical : found.Lexical)
    (ends : ∀ character ∈ rest.head?, found.runsOn character = false) :
    tokens (found.text.toList ++ rest) = (found :: ·) <$> tokens rest := by
  cases found with
  | name word =>
      obtain ⟨first, part, spelled, start, parts⟩ := lexical.spelled
      have read := tokens_word start parts ends
      rwa [← spelled, String.ofList_toList, lexical.free] at read
  | literal value =>
      have nonnegative : 0 ≤ value.toInt := Int64.le_iff_toInt_le.mp lexical
      have fits : Word.ofInt? value.toInt.toNat = some value := by
        rw [Int.toNat_of_nonneg nonnegative, Word.ofInt?,
          if_pos ⟨value.minValue_le_toInt, value.toInt_le⟩, Int64.ofInt_toInt]
      have written : value.toInt.repr = value.toInt.toNat.repr := by
        rw [Int.repr_eq_if, if_pos nonnegative]
      rw [Token.text, written]
      exact tokens_number ends fits
  | ifWord | thenWord | elseWord | trueWord | falseWord =>
      exact tokens_word (by decide) (List.all_eq_true.mp (by decide)) ends
  | bang =>
      have read := read_alone (operator '!') rfl (by simp +contextual [operator]) ends
      exact tokens_mark '!' rest (by decide) read
  | equal =>
      have read := read_alone (operator '=') rfl (by simp +contextual [operator]) ends
      exact tokens_mark '=' rest (by decide) read
  | less =>
      have read := read_alone (operator '<') rfl (by simp +contextual [operator]) ends
      exact tokens_mark '<' rest (by decide) read
  | lessEqual =>
      have read := read_alone (fun rest => operator '<' ('=' :: rest)) rfl
        (by simp +contextual [operator]) ends
      exact tokens_mark '<' ('=' :: rest) (by decide) read
  | greater =>
      have read := read_alone (operator '>') rfl (by simp +contextual [operator]) ends
      exact tokens_mark '>' rest (by decide) read
  | slash =>
      have read := read_alone (operator '/') rfl (by simp +contextual [operator]) ends
      exact tokens_mark '/' rest (by decide) read
  | _ => exact tokens_of_token (skipLayout_of_solid (by decide) (by decide) _) rfl

end Lexer

end SymbolicSafety
