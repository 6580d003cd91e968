import SymbolicSafety.Toml.Quoted

namespace SymbolicSafety.Toml

/-! Reading a configuration file, line by line. -/

def skipBlanks (chars : List Char) : List Char :=
  chars.dropWhile fun char => char = ' ' || char = '\t'

def skipLayout (comment : Bool) : List Char → Option (List Char)
  | [] => some []
  | '\r' :: '\n' :: rest => skipLayout false rest
  | char :: rest =>
      if char = '\n' then skipLayout false rest
      else if comment then if isPlain char then skipLayout true rest else none
      else if char = ' ' ∨ char = '\t' then skipLayout false rest
      else if char = '#' then skipLayout true rest
      else some (char :: rest)

def endLine (chars : List Char) : Option (List Char) :=
  let rest := match skipBlanks chars with
    | '#' :: rest => rest.dropWhile isPlain
    | rest => rest
  match rest with
  | [] => some []
  | '\n' :: rest => some rest
  | '\r' :: '\n' :: rest => some rest
  | _ => none

/-! ## Keys -/

def isBare (char : Char) : Bool := char.isAlphanum || char = '_' || char = '-'

def keyPart? : List Char → Option (String × List Char)
  | '"' :: rest => quotedLine? ('"' :: rest)
  | '\'' :: rest => quotedLine? ('\'' :: rest)
  | chars =>
      let name := chars.takeWhile isBare
      if name.isEmpty then none else some (String.ofList name, chars.dropWhile isBare)

def keyParts? : Nat → List Char → Option (List String × List Char)
  | 0, _ => none
  | fuel + 1, chars => do
      let (part, rest) ← keyPart? chars
      match skipBlanks rest with
      | '.' :: rest => do
          let (parts, rest) ← keyParts? fuel (skipBlanks rest)
          pure (part :: parts, rest)
      | rest => some ([part], rest)

/-- Keys may have this many parts, and values may be nested this deeply. -/
def maxNesting : Nat := 80

def key? (chars : List Char) : Option (Key × List Char) := do
  let (parts, rest) ← keyParts? chars.length (skipBlanks chars)
  guard (parts.length ≤ maxNesting)
  let last ← parts.getLast?
  pure (⟨parts.dropLast, last⟩, rest)

/-! ## Values -/

def bareValue (chars : List Char) : List Char × List Char :=
  let isPart (char : Char) : Bool :=
    !(char = ' ' || char = '\t' || char = '\n' || char = '\r' || char = ',' || char = ']'
      || char = '\x7d' || char = '#')
  (chars.takeWhile isPart, chars.dropWhile isPart)

/-- A value without quotes. A date may be followed by a blank and a time. -/
def bareValue? (chars : List Char) : Option (Value × List Char) :=
  let (first, rest) := bareValue chars
  let (text, rest) := match date? first, rest with
    | some [], ' ' :: digit :: more =>
        if digit.isDigit then
          let (second, rest) := bareValue (digit :: more)
          (first ++ ' ' :: second, rest)
        else
          (first, rest)
    | _, _ => (first, rest)
  do pure (← scalar? text, rest)

def items? (close : Char) (item? : List Char → Option (α × List Char)) :
    Nat → List Char → Option (List α × List Char)
  | 0, _ => none
  | fuel + 1, chars => do
      let chars ← skipLayout false chars
      if chars.head? = some close then some ([], chars.drop 1) else
      let (item, rest) ← item? chars
      match ← skipLayout false rest with
      | ',' :: rest => do
          let (items, rest) ← items? close item? fuel rest
          pure (item :: items, rest)
      | char :: rest => if char = close then some ([item], rest) else none
      | [] => none

/-- A key, and the value behind an equals sign. What may stand around the sign is
skipped by `skip?`. -/
def assignment? (skip? : List Char → Option (List Char))
    (value? : List Char → Option (Value × List Char)) (chars : List Char) :
    Option ((Key × Value) × List Char) := do
  let (key, rest) ← key? chars
  let '=' :: rest ← skip? rest | none
  let (value, rest) ← value? (← skip? rest)
  pure ((key, value), rest)

/-- A value with at most `depth` levels of brackets. Lines may end between the
brackets, but not inside a key. -/
def value? : Nat → List Char → Option (Value × List Char)
  | depth, '[' :: rest =>
      match depth with
      | 0 => none
      | depth + 1 => do
          let (items, rest) ← items? ']' (value? depth) rest.length rest
          pure (.array items, rest)
  | depth, '\x7b' :: rest =>
      match depth with
      | 0 => none
      | depth + 1 => do
          let item? := assignment? (skipLayout false) (value? depth)
          let (items, rest) ← items? '\x7d' item? rest.length rest
          let entries ← items.foldlM (fun entries (key, value) =>
            Entries.assign value key.last key.path entries) []
          pure (.table .inline entries, rest)
  | _, '"' :: rest => do
      let (text, rest) ← quoted? ('"' :: rest)
      pure (.string text, rest)
  | _, '\'' :: rest => do
      let (text, rest) ← quoted? ('\'' :: rest)
      pure (.string text, rest)
  | _, chars => bareValue? chars

/-! ## Documents -/

inductive Line where
  | header (key : Key)
  | nextHeader (key : Key)
  | entry (key : Key) (value : Value)

def line? : List Char → Option (Line × List Char)
  | '[' :: '[' :: rest => do
      let (key, rest) ← key? rest
      let ']' :: ']' :: rest := rest | none
      pure (.nextHeader key, rest)
  | '[' :: rest => do
      let (key, rest) ← key? rest
      let ']' :: rest := rest | none
      pure (.header key, rest)
  | chars => do
      let ((key, value), rest) ← assignment? (some ∘ skipBlanks) (value? maxNesting) chars
      pure (.entry key value, rest)

def lines? : Nat → List Char → Option (List Line)
  | fuel, chars => do
      match fuel, ← skipLayout false chars with
      | _, [] => some []
      | 0, _ => none
      | fuel + 1, chars => do
          let (line, rest) ← line? chars
          let rest ← endLine rest
          pure (line :: (← lines? fuel rest))

structure Document where
  root : Entries := []
  opened : List String := []

def Document.add (document : Document) : Line → Option Document
  | .header key => do pure ⟨← document.root.openTable key, key.parts⟩
  | .nextHeader key => do pure ⟨← document.root.openNext key, key.parts⟩
  | .entry key value => do
      let root ← document.root.changeAt (Entries.assign value key.last key.path) document.opened
      pure { document with root }

def read (text : String) : Option Entries := do
  let chars := match text.toList with
    | '\ufeff' :: chars => chars
    | chars => chars
  let lines ← lines? chars.length chars
  let document ← lines.foldlM Document.add {}
  pure document.root

end SymbolicSafety.Toml
