import SymbolicSafety.Toml.Scalar

namespace SymbolicSafety.Toml

/-! Text in quotes. -/

inductive Escape where
  | none
  | start
  | lineEnd
  | continued
  | digits (more : Nat) (value : Nat)
  deriving DecidableEq, Repr

def isPlain (char : Char) : Bool := char = '\t' || (' ' ≤ char && char ≠ '\x7f')

def escaped? : Char → Option Char
  | 'b' => some '\x08'
  | 't' => some '\t'
  | 'n' => some '\n'
  | 'f' => some '\x0c'
  | 'r' => some '\r'
  | 'e' => some '\x1b'
  | '"' => some '"'
  | '\\' => some '\\'
  | _ => none

def escapeWidth? : Char → Option Nat
  | 'x' => some 1
  | 'u' => some 3
  | 'U' => some 7
  | _ => none

def scalarValue? (value : Nat) : Option Char :=
  if value.isValidChar then some (Char.ofNat value) else none

def escapeStep : Escape → Char → Option (List Char × Escape)
  | .start, char =>
      match escaped? char, escapeWidth? char with
      | some plain, _ => some ([plain], .none)
      | none, some more => some ([], .digits more 0)
      | none, none => Option.none
  | .digits more value, char =>
      if isHexDigit char then
        let value := 16 * value + digitValue char
        match more with
        | 0 => do pure ([← scalarValue? value], .none)
        | more + 1 => some ([], .digits more value)
      else
        Option.none
  | _, _ => Option.none

/-- Text up to the closing quote on the same line. `text` is what was read, last
character first. -/
def basicLine (state : Escape) (text : List Char) : List Char → Option (String × List Char)
  | [] => none
  | char :: rest =>
      match state with
      | .none =>
          if char = '"' then some (String.ofList text.reverse, rest)
          else if char = '\\' then basicLine .start text rest
          else if isPlain char then basicLine .none (char :: text) rest
          else none
      | state => do
          let (added, state) ← escapeStep state char
          basicLine state (added ++ text) rest

def closeTriple (quote : Char) (text rest : List Char) : Option (String × List Char) :=
  let run := min 4 (rest.takeWhile (· = quote)).length
  some (String.ofList (text.reverse ++ List.replicate (run - 2) quote), rest.drop run)

def isTriple (quote : Char) : List Char → Bool
  | second :: third :: _ => second = quote && third = quote
  | _ => false

/-- Text up to closing triple quotes. A backslash at the end of a line takes
away the line end and all blanks behind it. -/
def basicBlock (state : Escape) (text : List Char) : List Char → Option (String × List Char)
  | [] => none
  | '\r' :: '\n' :: rest =>
      match state with
      | .none => basicBlock .none ('\n' :: text) rest
      | .start | .lineEnd | .continued => basicBlock .continued text rest
      | .digits .. => none
  | char :: rest =>
      let isBlank := char = ' ' || char = '\t'
      match state with
      | .start =>
          if char = '\n' then basicBlock .continued text rest
          else if isBlank then basicBlock .lineEnd text rest
          else do
            let (added, state) ← escapeStep .start char
            basicBlock state (added ++ text) rest
      | .lineEnd =>
          if char = '\n' then basicBlock .continued text rest
          else if isBlank then basicBlock .lineEnd text rest
          else none
      | .digits more value => do
          let (added, state) ← escapeStep (.digits more value) char
          basicBlock state (added ++ text) rest
      | state =>
          if state = .continued ∧ (isBlank ∨ char = '\n') then basicBlock .continued text rest
          else if char = '"' ∧ isTriple '"' rest then closeTriple '"' text rest
          else if char = '\\' then basicBlock .start text rest
          else if char = '\n' ∨ isPlain char then basicBlock .none (char :: text) rest
          else none

def literalLine (text : List Char) : List Char → Option (String × List Char)
  | [] => none
  | char :: rest =>
      if char = '\'' then some (String.ofList text.reverse, rest)
      else if isPlain char then literalLine (char :: text) rest
      else none

def literalBlock (text : List Char) : List Char → Option (String × List Char)
  | [] => none
  | '\r' :: '\n' :: rest => literalBlock ('\n' :: text) rest
  | char :: rest =>
      if char = '\'' ∧ isTriple '\'' rest then closeTriple '\'' text rest
      else if char = '\n' ∨ isPlain char then literalBlock (char :: text) rest
      else none

def skipLineEnd : List Char → List Char
  | '\n' :: rest => rest
  | '\r' :: '\n' :: rest => rest
  | chars => chars

def quotedLine? : List Char → Option (String × List Char)
  | '"' :: rest => basicLine .none [] rest
  | '\'' :: rest => literalLine [] rest
  | _ => none

def quoted? : List Char → Option (String × List Char)
  | '"' :: '"' :: '"' :: rest => basicBlock .none [] (skipLineEnd rest)
  | '\'' :: '\'' :: '\'' :: rest => literalBlock [] (skipLineEnd rest)
  | chars => quotedLine? chars

end SymbolicSafety.Toml
