import SymbolicSafety.Text.Emoji
import SymbolicSafety.Text.Ligature

namespace SymbolicSafety

/-! How many columns a text takes on a terminal. ASCII text takes one column a
byte. Any other text takes the columns of its characters, except where several
characters are drawn as one. The text is read from its end, since what follows a
character decides how it is drawn. -/

namespace DisplayWidth

inductive Selector where
  | text
  | emoji
  | fullwidth
  deriving DecidableEq, Repr

def Selector.ofChar? : Char → Option Selector
  | '\ufe01' => some .fullwidth
  | '\ufe0e' => some .text
  | '\ufe0f' => some .emoji
  | _ => none

inductive Tags where
  | letters (count : Nat)
  | digits (count : Nat)
  deriving DecidableEq, Repr

/-- What follows a character, as far as it matters. What is joined stands in
front of a joiner and an emoji. -/
inductive Sequel where
  | plain
  | lineFeed
  | emoji
  | modifier
  | regional
  | regionals
  | joined
  | joinedKeycap
  | joinedRegional
  | joinedPairs
  | joinedPairsAndOne
  | joinedTags (tags : Tags)
  | kiratRaiE
  | kiratRaiAi
  | ligature (held : Ligature)
  deriving DecidableEq, Repr

structure Context where
  sequel : Sequel := .plain
  selector : Option Selector := none
  deriving DecidableEq, Repr

/-- What follows a selector. Only a ligature goes on behind it, and an emoji that
is joined to the one the selector asks for. -/
def Sequel.behind (selector : Selector) : Sequel → Sequel
  | .ligature held => .ligature held
  | .joined => if selector = .emoji then .joined else .plain
  | .joinedKeycap => if selector = .emoji then .joinedKeycap else .plain
  | _ => .plain

def Context.unselected (context : Context) : Sequel :=
  match context.selector, context.sequel with
  | none, sequel => sequel
  | some _, .ligature held => .ligature held
  | some _, _ => .plain

def Context.selected? (context : Context) (character : Char) : Option (Int × Sequel) :=
  match context.selector with
  | some .emoji =>
      if Emoji.isSelectable character then
        some (if context.sequel = .joined ∨ context.sequel = .joinedKeycap then 0 else 2, .emoji)
      else
        none
  | some .text => if Emoji.isSign character then some (1, .plain) else none
  | some .fullwidth =>
      if character ∈ ['\u2018', '\u2019', '\u201c', '\u201d'] then some (2, .plain) else none
  | none => none

def alone (character : Char) : Int × Sequel :=
  if Emoji.isPicture character then (2, .emoji)
  else if Emoji.isModifier character then (2, .modifier)
  else if Emoji.isRegional character then (1, .regional)
  else if character.toNat = 0x16d67 then (1, .kiratRaiE)
  else if character.toNat = 0x16d68 then (1, .kiratRaiAi)
  else
    match Ligature.ofEnd? character with
    | some held => (1, .ligature held)
    | none => (CharacterWidth.ofChar character, .plain)

/-- A character in front of tags. A region has three to six letters, or three
digits and up to four letters. -/
def Tags.before? (tags : Tags) (character : Char) : Option (Int × Sequel) :=
  match tags with
  | .letters count =>
      if Emoji.isTagLetter character ∧ count < 6 then some (0, .joinedTags (.letters (count + 1)))
      else if Emoji.isTagDigit character ∧ count ≤ 4 then some (0, .joinedTags (.digits 1))
      else if character = Emoji.blackFlag ∧ 3 ≤ count then some (0, .emoji)
      else none
  | .digits count =>
      if Emoji.isTagDigit character ∧ count < 3 then some (0, .joinedTags (.digits (count + 1)))
      else if character = Emoji.blackFlag ∧ count = 3 then some (0, .emoji)
      else none

/-- A character that is drawn together with its sequel: the columns it adds to
those of the sequel. -/
def Sequel.before? (sequel : Sequel) (character : Char) : Option (Int × Sequel) :=
  match sequel with
  | .plain | .lineFeed | .joinedKeycap => none
  | .emoji => if character = joiner then some (0, .joined) else none
  | .modifier =>
      if Emoji.isBody character then some (0, .emoji)
      else if character = joiner then some (0, .joined)
      else none
  | .regional => if Emoji.isRegional character then some (1, .regionals) else none
  | .regionals =>
      if Emoji.isRegional character then some (1, .regionals)
      else if character = joiner then some (0, .joined)
      else none
  | .joined =>
      if Emoji.isPicture character then some (0, .emoji)
      else if Emoji.isModifier character then some (0, .modifier)
      else if Emoji.isRegional character then some (1, .joinedRegional)
      else if character = Emoji.keycap then some (0, .joinedKeycap)
      else if character = Emoji.tagEnd then some (0, .joinedTags (.letters 0))
      else none
  | .joinedRegional => if Emoji.isRegional character then some (-1, .joinedPairs) else none
  | .joinedPairs =>
      if Emoji.isRegional character then some (3, .joinedPairsAndOne)
      else if character = joiner then some (0, .joined)
      else none
  | .joinedPairsAndOne =>
      if Emoji.isRegional character then some (-1, .joinedPairs)
      else if character = joiner then some (0, .joined)
      else none
  | .joinedTags tags => tags.before? character
  | .kiratRaiE =>
      match character.toNat with
      | 0x16d63 | 0x16d69 => some (0, .plain)
      | 0x16d67 => some (0, .kiratRaiAi)
      | 0x16d68 => some (1, .kiratRaiE)
      | _ => none
  | .kiratRaiAi => if character.toNat = 0x16d63 then some (0, .plain) else none
  | .ligature held =>
      (held.before? character).map fun (columns, rest) =>
        (columns, rest.elim .plain Sequel.ligature)

def narrow (character : Char) (sequel : Sequel) : Int × Sequel :=
  if character = '\n' then (1, .lineFeed)
  else if character = '\r' ∧ sequel = .lineFeed then (0, .plain)
  else (1, .plain)

/-- Read one more character in front of a context: the columns it adds. -/
def step (character : Char) (context : Context) : Int × Context :=
  match context.selected? character with
  | some (columns, sequel) => (columns, { sequel })
  | none =>
      let sequel := context.unselected
      match Selector.ofChar? character with
      | some selector => (0, { sequel := sequel.behind selector, selector })
      | none =>
          let (columns, sequel) :=
            if character.toNat ≤ 0xa0 then narrow character sequel
            else (sequel.before? character).getD (alone character)
          (columns, { sequel })

def measure : List Char → Int × Context
  | [] => (0, {})
  | character :: rest =>
      let (total, context) := measure rest
      let (columns, context) := step character context
      (columns + total, context)

def columns (text : String) : Nat :=
  if text.toList.all fun character => character.toNat < 0x80 then
    text.length
  else
    (measure text.toList).1.toNat

end DisplayWidth

end SymbolicSafety
