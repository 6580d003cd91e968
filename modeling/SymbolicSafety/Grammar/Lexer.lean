import SymbolicSafety.Foundation.Word
import SymbolicSafety.Grammar.Token

namespace SymbolicSafety

/-! Splitting a text into tokens. Layout between tokens is white space and
comments, which run from a semicolon to the end of the line. -/

/-- White space in the sense of the `White_Space` property: the ASCII controls
from tab to carriage return, the blank, and the wider blanks and separators
beyond ASCII. Zero-width characters are not white space. -/
def isBlank (character : Char) : Bool :=
  let code := character.toNat
  (9 ≤ code && code ≤ 13) || code = 0x20 || code = 0x85 || code = 0xa0 || code = 0x1680
    || (0x2000 ≤ code && code ≤ 0x200a) || code = 0x2028 || code = 0x2029 || code = 0x202f
    || code = 0x205f || code = 0x3000

namespace Lexer

def isNameStart (character : Char) : Bool := character.isAlpha || character = '_'

def isNamePart (character : Char) : Bool := character.isAlphanum || character = '_'

def skipLayout (inComment : Bool) : List Char → List Char
  | [] => []
  | character :: rest =>
      if inComment then
        skipLayout (character ≠ '\n') rest
      else if isBlank character then
        skipLayout false rest
      else if character = ';' then
        skipLayout true rest
      else
        character :: rest

def digitsValue (digits : List Char) : Nat :=
  digits.foldl (fun value digit => 10 * value + (digit.toNat - '0'.toNat)) 0

/-- The longest operator or punctuation mark in front of a text. A backslash
must be followed by a slash. -/
def operator : Char → List Char → Except ReadError (Token × List Char)
  | '<', '=' :: '>' :: rest => .ok (.iff, rest)
  | '=', '>' :: rest => .ok (.implies, rest)
  | '<', '=' :: rest => .ok (.lessEqual, rest)
  | '>', '=' :: rest => .ok (.greaterEqual, rest)
  | '!', '=' :: rest => .ok (.unequal, rest)
  | '/', '\\' :: rest => .ok (.conjunction, rest)
  | '\\', '/' :: rest => .ok (.disjunction, rest)
  | '\\', rest => .error (.lexing rest.head?)
  | '(', rest => .ok (.openParen, rest)
  | ')', rest => .ok (.closeParen, rest)
  | '!', rest => .ok (.bang, rest)
  | '=', rest => .ok (.equal, rest)
  | '<', rest => .ok (.less, rest)
  | '>', rest => .ok (.greater, rest)
  | '+', rest => .ok (.plus, rest)
  | '-', rest => .ok (.minus, rest)
  | '*', rest => .ok (.star, rest)
  | '/', rest => .ok (.slash, rest)
  | '%', rest => .ok (.percent, rest)
  | '\'', rest => .ok (.tick, rest)
  | '@', rest => .ok (.atSign, rest)
  | character, _ => .error (.lexing (some character))

/-- The token in front of a text that does not begin with layout, and the rest
of the text. A number has no leading zeros: a zero is a number by itself. -/
def token (character : Char) (rest : List Char) : Except ReadError (Token × List Char) :=
  if isNameStart character then
    .ok (.ofWord (String.ofList (character :: rest.takeWhile isNamePart)),
      rest.dropWhile isNamePart)
  else if character = '0' then
    .ok (.literal 0, rest)
  else if character.isDigit then
    match Word.ofInt? (digitsValue (character :: rest.takeWhile Char.isDigit)) with
    | some value => .ok (.literal value, rest.dropWhile Char.isDigit)
    | none => .error (.lexing (some character))
  else
    operator character rest

theorem length_dropWhile_le (keep : α → Bool) (list : List α) :
    (list.dropWhile keep).length ≤ list.length :=
  (List.dropWhile_sublist keep).length_le

theorem length_operator_le {character : Char} {text rest : List Char} {found : Token}
    (read : operator character text = .ok (found, rest)) : rest.length ≤ text.length := by
  unfold operator at read
  split at read <;> simp_all <;> omega

theorem length_token_le {character : Char} {text rest : List Char} {found : Token}
    (read : token character text = .ok (found, rest)) : rest.length ≤ text.length := by
  unfold token at read
  split at read
  · obtain ⟨-, rfl⟩ := read
    exact length_dropWhile_le _ _
  · split at read
    · obtain ⟨-, rfl⟩ := read
      exact Nat.le_refl _
    · split at read
      · split at read
        · obtain ⟨-, rfl⟩ := read
          exact length_dropWhile_le _ _
        · cases read
      · exact length_operator_le read

theorem length_skipLayout_le (inComment : Bool) (text : List Char) :
    (skipLayout inComment text).length ≤ text.length := by
  induction text generalizing inComment with
  | nil => simp [skipLayout]
  | cons character rest induction =>
      simp only [skipLayout]
      split
      · exact Nat.le_succ_of_le (induction _)
      · split
        · exact Nat.le_succ_of_le (induction _)
        · split
          · exact Nat.le_succ_of_le (induction _)
          · exact Nat.le_refl _

def tokens (text : List Char) : Except ReadError (List Token) :=
  match layout : skipLayout false text with
  | [] => .ok []
  | character :: rest =>
      match read : token character rest with
      | .error error => .error error
      | .ok (found, remaining) => do
          have : remaining.length < text.length := by
            have shorter := length_token_le read
            have whole := length_skipLayout_le false text
            rw [layout, List.length_cons] at whole
            omega
          let more ← tokens remaining
          pure (found :: more)
termination_by text.length

/-- Split a text into tokens. Layout must lead up to or follow a token: a text
of nothing but layout is refused, while the empty text has no tokens. -/
def tokenize (text : String) : Except ReadError (List Token) := do
  let found ← tokens text.toList
  if found.isEmpty && !text.isEmpty then throw (.lexing none) else pure found

end Lexer

end SymbolicSafety
