import SymbolicSafety.Toml.Value

namespace SymbolicSafety.Toml

/-! Values without quotes: truth values, numbers, dates and times. -/

/-- Digits, which may be grouped by single underscores between them. -/
def ungroup (isDigit : Char → Bool) : List Char → Option (List Char)
  | [] => none
  | [digit] => if isDigit digit then some [digit] else none
  | digit :: '_' :: rest => if isDigit digit then (digit :: ·) <$> ungroup isDigit rest else none
  | digit :: rest => if isDigit digit then (digit :: ·) <$> ungroup isDigit rest else none

def digitValue (char : Char) : Nat :=
  if char.isDigit then char.toNat - '0'.toNat
  else if 'a' ≤ char ∧ char ≤ 'f' then char.toNat - 'a'.toNat + 10
  else char.toNat - 'A'.toNat + 10

def ofDigits (base : Nat) (digits : List Char) : Nat :=
  digits.foldl (fun value digit => base * value + digitValue digit) 0

def isHexDigit (char : Char) : Bool :=
  char.isDigit || ('a' ≤ char && char ≤ 'f') || ('A' ≤ char && char ≤ 'F')

def isOctalDigit (char : Char) : Bool := '0' ≤ char && char ≤ '7'

def isBinaryDigit (char : Char) : Bool := char = '0' || char = '1'

def wholeDigits? (chars : List Char) : Option (List Char) := do
  let digits ← ungroup Char.isDigit chars
  match digits with
  | '0' :: _ :: _ => none
  | digits => some digits

def splitSign : List Char → Bool × List Char
  | '-' :: rest => (true, rest)
  | '+' :: rest => (false, rest)
  | chars => (false, chars)

def integer? (chars : List Char) : Option Int :=
  match chars with
  | '0' :: 'x' :: rest => do pure (ofDigits 16 (← ungroup isHexDigit rest))
  | '0' :: 'o' :: rest => do pure (ofDigits 8 (← ungroup isOctalDigit rest))
  | '0' :: 'b' :: rest => do pure (ofDigits 2 (← ungroup isBinaryDigit rest))
  | chars => do
      let (negative, rest) := splitSign chars
      let value := ofDigits 10 (← wholeDigits? rest)
      pure (if negative then -(value : Int) else value)

def integerFits (value : Int) : Bool :=
  -0x80000000000000000000000000000000 ≤ value && value < 0x100000000000000000000000000000000

/-- Whether `digits * 10 ^ exponent` rounds to a finite number of double
precision. -/
def floatFits (digits : Nat) (exponent : Int) : Bool :=
  let limit := Nat.pow 2 1024 - Nat.pow 2 970
  let magnitude := digits.repr.length + exponent
  if digits = 0 ∨ magnitude < 300 then true
  else if 400 < magnitude then false
  else if 0 ≤ exponent then digits * Nat.pow 10 exponent.toNat < limit
  else digits < limit * Nat.pow 10 (-exponent).toNat

def splitFraction : List Char → Option (List Char × List Char)
  | '.' :: rest => do
      let isPart (char : Char) : Bool := char ≠ 'e' && char ≠ 'E'
      let digits ← ungroup Char.isDigit (rest.takeWhile isPart)
      pure (digits, rest.dropWhile isPart)
  | chars => some ([], chars)

def exponent? : List Char → Option Int
  | [] => some 0
  | mark :: rest => do
      if mark ≠ 'e' ∧ mark ≠ 'E' then none else
      let (negative, rest) := splitSign rest
      let value := ofDigits 10 (← ungroup Char.isDigit rest)
      pure (if negative then -(value : Int) else value)

/-- Whether a text is a number with a point or an exponent, or one of the words
for infinity and for no number. -/
def isFloat (chars : List Char) : Bool :=
  let (_, rest) := splitSign chars
  if rest = ['i', 'n', 'f'] ∨ rest = ['n', 'a', 'n'] then true
  else
    let isWhole (char : Char) : Bool := char ≠ '.' && char ≠ 'e' && char ≠ 'E'
    let tail := rest.dropWhile isWhole
    let parts := do
      let whole ← wholeDigits? (rest.takeWhile isWhole)
      let (fraction, tail) ← splitFraction tail
      let power ← exponent? tail
      pure (floatFits (ofDigits 10 (whole ++ fraction)) (power - fraction.length))
    !tail.isEmpty && parts.getD false

/-! ## Dates and times -/

def twoDigits? : List Char → Option (Nat × List Char)
  | tens :: ones :: rest =>
      if tens.isDigit && ones.isDigit then some (ofDigits 10 [tens, ones], rest) else none
  | _ => none

def daysIn (year month : Nat) : Nat :=
  if month = 2 then
    if year % 4 = 0 ∧ (year % 100 ≠ 0 ∨ year % 400 = 0) then 29 else 28
  else if month = 4 ∨ month = 6 ∨ month = 9 ∨ month = 11 then 30
  else 31

def date? (chars : List Char) : Option (List Char) := do
  let (century, rest) ← twoDigits? chars
  let (year, rest) ← twoDigits? rest
  let '-' :: rest := rest | none
  let (month, rest) ← twoDigits? rest
  let '-' :: rest := rest | none
  let (day, rest) ← twoDigits? rest
  let valid := 1 ≤ month && month ≤ 12 && 1 ≤ day && day ≤ daysIn (100 * century + year) month
  if valid then some rest else none

def clock? (chars : List Char) : Option (List Char) := do
  let (hour, rest) ← twoDigits? chars
  let ':' :: rest := rest | none
  let (minute, rest) ← twoDigits? rest
  if hour ≤ 23 ∧ minute ≤ 59 then some rest else none

def time? (chars : List Char) : Option (List Char) := do
  let rest ← clock? chars
  match rest with
  | ':' :: rest =>
      let (second, rest) ← twoDigits? rest
      if 60 < second then none else
      match rest with
      | '.' :: rest =>
          if (rest.takeWhile Char.isDigit).isEmpty then none
          else some (rest.dropWhile Char.isDigit)
      | rest => some rest
  | rest => some rest

def isOffset : List Char → Bool
  | [] => true
  | ['Z'] => true
  | ['z'] => true
  | '+' :: rest => clock? rest = some []
  | '-' :: rest => clock? rest = some []
  | _ => false

def isDateTime (chars : List Char) : Bool :=
  match date? chars with
  | some [] => true
  | some (mark :: rest) =>
      (mark = 'T' || mark = 't' || mark = ' ') && ((time? rest).map isOffset).getD false
  | none => time? chars = some []

def scalar? (chars : List Char) : Option Value :=
  let text := String.ofList chars
  if text = "true" then some (.boolean true)
  else if text = "false" then some (.boolean false)
  else
    match integer? chars with
    | some value => if integerFits value then some (.integer value) else none
    | none =>
        if isFloat chars then some (.float text)
        else if isDateTime chars then some (.dateTime text)
        else none

end SymbolicSafety.Toml
