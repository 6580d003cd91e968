import SymbolicSafety.Text.CharacterWidth

namespace SymbolicSafety

/-! Letters that are drawn as one. A ligature is recognised from its end: its
last letter is remembered, together with what has been seen in front of it, until
a character decides. -/

def joiner : Char := '\u200d'

inductive LigatureEnd where
  | arabicAlef
  | hebrewLamed
  | khmerLetter
  | bugineseYa
  | bugineseVowelYa
  | tifinaghConsonant
  | tifinaghJoined
  | lisuTone
  | oldTurkicI
  deriving DecidableEq, Repr

structure Ligature where
  ending : LigatureEnd
  joined : Bool := false
  deriving DecidableEq, Repr

namespace Ligature

def alefs : CharacterClass :=
  [(0x622, 0x623), (0x625, 0x625), (0x627, 0x627), (0x671, 0x673), (0x675, 0x675), (0x773, 0x774),
   (0x870, 0x882)]

def lams : CharacterClass :=
  [(0x644, 0x644), (0x6b5, 0x6b8), (0x76a, 0x76a), (0x8a6, 0x8a6), (0x8c7, 0x8c7)]

def khmerLetters : CharacterClass :=
  [(0x1780, 0x1782), (0x1784, 0x1787), (0x1789, 0x178c), (0x178e, 0x1793), (0x1795, 0x1798),
   (0x179b, 0x179d), (0x17a0, 0x17a0), (0x17a2, 0x17a2), (0x17a7, 0x17a7), (0x17ab, 0x17ac),
   (0x17af, 0x17af)]

def tifinaghConsonants : CharacterClass := [(0x2d31, 0x2d65), (0x2d6f, 0x2d6f)]

def hiddenMarks : CharacterClass :=
  [(0x34f, 0x34f), (0x17b4, 0x17b5), (0x180b, 0x180d), (0x180f, 0x180f), (0xfe00, 0xfe0f),
   (0xe0100, 0xe01ef)]

/-- Characters of no width that do not let Arabic letters join across them. -/
def separators : CharacterClass :=
  [(0x605, 0x605), (0x890, 0x891), (0x8e2, 0x8e2), (0x9be, 0x9be), (0x9d7, 0x9d7), (0xb3e, 0xb3e),
   (0xb57, 0xb57), (0xbbe, 0xbbe), (0xbd7, 0xbd7), (0xcc0, 0xcc0), (0xcc2, 0xcc2), (0xcc7, 0xcc8),
   (0xcca, 0xccb), (0xcd5, 0xcd6), (0xd3e, 0xd3e), (0xd4e, 0xd4e), (0xd57, 0xd57), (0xdcf, 0xdcf),
   (0xddf, 0xddf), (0x1160, 0x11ff), (0x1715, 0x1715), (0x1734, 0x1734), (0x180e, 0x180e),
   (0x1b35, 0x1b35), (0x1b3b, 0x1b3b), (0x1b3d, 0x1b3d), (0x1b43, 0x1b44), (0x1baa, 0x1baa),
   (0x1bf2, 0x1bf3), (0x200c, 0x200d), (0x2065, 0x2069), (0x302e, 0x302f), (0x3164, 0x3164),
   (0xa8fa, 0xa8fa), (0xa953, 0xa953), (0xa9c0, 0xa9c0), (0xd7b0, 0xd7c6), (0xd7cb, 0xd7fb),
   (0xff9e, 0xffa0), (0xfff0, 0xfff8), (0x111c0, 0x111c0), (0x111c2, 0x111c3), (0x11235, 0x11235),
   (0x1133e, 0x1133e), (0x1134d, 0x1134d), (0x11357, 0x11357), (0x113b8, 0x113b8),
   (0x113c2, 0x113c2), (0x113c5, 0x113c5), (0x113c7, 0x113c9), (0x113cf, 0x113cf),
   (0x113d1, 0x113d1), (0x114b0, 0x114b0), (0x114bd, 0x114bd), (0x115af, 0x115af),
   (0x116b6, 0x116b6), (0x11930, 0x11930), (0x1193d, 0x1193d), (0x1193f, 0x1193f),
   (0x11941, 0x11941), (0x11a3a, 0x11a3a), (0x11a84, 0x11a89), (0x11d46, 0x11d46),
   (0x11f02, 0x11f02), (0x11f41, 0x11f41), (0x16ff0, 0x16ff1), (0x1d165, 0x1d166),
   (0x1d16d, 0x1d172), (0xe0000, 0xe0000), (0xe0002, 0xe001f), (0xe0080, 0xe00ff),
   (0xe01f0, 0xe0fff)]

def isTransparent (character : Char) : Bool :=
  CharacterWidth.ofChar character = 0 && !separators.has character

def ofEnd? (character : Char) : Option Ligature :=
  if alefs.has character then some ⟨.arabicAlef, false⟩
  else if khmerLetters.has character then some ⟨.khmerLetter, false⟩
  else if tifinaghConsonants.has character then some ⟨.tifinaghConsonant, false⟩
  else
    match character with
    | '\u05dc' => some ⟨.hebrewLamed, false⟩
    | '\u1a10' => some ⟨.bugineseYa, false⟩
    | '\ua4fc' | '\ua4fd' => some ⟨.lisuTone, false⟩
    | _ => if character.toNat = 0x10c03 then some ⟨.oldTurkicI, false⟩ else none

/-- A letter in front of an end: the columns it adds to those of the end, and the
ligature that goes on. -/
def letter? (ligature : Ligature) (character : Char) : Option (Int × Option Ligature) :=
  match ligature.ending with
  | .arabicAlef => if lams.has character then some (0, none) else none
  | .hebrewLamed => if ligature.joined ∧ character = '\u05d0' then some (0, none) else none
  | .khmerLetter => if character = '\u17d2' then some (-1, none) else none
  | .bugineseYa =>
      if ligature.joined ∧ character = '\u1a17' then
        some (0, some ⟨.bugineseVowelYa, false⟩)
      else
        none
  | .bugineseVowelYa => if character = '\u1a15' then some (0, none) else none
  | .tifinaghConsonant =>
      if character = '\u2d7f' then some (1, some ⟨.tifinaghJoined, false⟩)
      else if ligature.joined ∧ tifinaghConsonants.has character then some (0, none)
      else none
  | .tifinaghJoined => if tifinaghConsonants.has character then some (-1, none) else none
  | .lisuTone => if '\ua4f8' ≤ character ∧ character ≤ '\ua4fb' then some (0, none) else none
  | .oldTurkicI => if ligature.joined ∧ character.toNat = 0x10c32 then some (0, none) else none

/-- A character in front of an end: a mark inside the ligature, or a letter that
completes it. The joiner has a meaning in all but Arabic ligatures. -/
def before? (ligature : Ligature) (character : Char) : Option (Int × Option Ligature) :=
  if ligature.ending = .arabicAlef then
    if isTransparent character then some (0, some ligature) else ligature.letter? character
  else if character = joiner then some (0, some { ligature with joined := true })
  else if hiddenMarks.has character then some (0, some ligature)
  else ligature.letter? character

end Ligature

end SymbolicSafety
