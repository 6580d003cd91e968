import SymbolicSafety.Layout.Document

namespace SymbolicSafety

/-! Colours of printed formulas on a terminal, as ANSI escape sequences. -/

/-- The part that a text plays in a printed formula. Parentheses know how deep
they are nested, so that a pair shares a colour. -/
inductive Highlight where
  | paren (depth : Nat)
  | keyword
  | operator
  | identifier
  | version
  | literal
  deriving DecidableEq, Repr

inductive Colour where
  | red
  | green
  | yellow
  | blue
  | magenta
  | cyan
  | white
  deriving DecidableEq, Repr

def Colour.digit : Colour → String
  | .red => "1"
  | .green => "2"
  | .yellow => "3"
  | .blue => "4"
  | .magenta => "5"
  | .cyan => "6"
  | .white => "7"

structure Appearance where
  bold : Bool
  dimmed : Bool
  colour : Option Colour

namespace Highlight

def parenColour (depth : Nat) : Colour :=
  match depth % 6 with
  | 0 => .blue
  | 1 => .green
  | 2 => .white
  | 3 => .yellow
  | 4 => .red
  | _ => .magenta

def appearance : Highlight → Appearance
  | .paren depth => ⟨false, true, some (parenColour depth)⟩
  | .keyword => ⟨true, false, some .cyan⟩
  | .operator => ⟨true, false, some .yellow⟩
  | .identifier => ⟨true, false, some .green⟩
  | .version => ⟨false, true, none⟩
  | .literal => ⟨false, false, some .magenta⟩

end Highlight

namespace Appearance

def reset : String := "\x1b[0m"

def select (appearance : Appearance) : String :=
  reset ++ (if appearance.bold then "\x1b[1m" else "")
    ++ (if appearance.dimmed then "\x1b[2m" else "")
    ++ (match appearance.colour with
      | some colour => "\x1b[3" ++ colour.digit ++ "m"
      | none => "")

end Appearance

/-- The layout with each highlighted text between its own sequences, even an
empty one. -/
def Document.renderColoured (width : Nat) (document : Document Highlight) : String :=
  String.join ((document.layout width).map fun fragment =>
    match fragment.style with
    | none => fragment.content
    | some highlight =>
        highlight.appearance.select ++ fragment.content ++ Appearance.reset)

end SymbolicSafety
