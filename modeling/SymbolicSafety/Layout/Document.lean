import SymbolicSafety.Text.DisplayWidth

namespace SymbolicSafety

/-! Documents that lay themselves out within a width. A group is put on one
line if it fits there; otherwise its own breaks become line ends, and the
groups inside it are tried in turn. -/

inductive Document (σ : Type) where
  | empty
  | text (style : Option σ) (content : String)
  | line
  | append (first second : Document σ)
  | nest (amount : Nat) (body : Document σ)
  | group (body : Document σ)
  deriving Repr, Inhabited

namespace Document

def andThen : Document σ → Document σ → Document σ
  | .empty, second => second
  | first, .empty => first
  | first, second => .append first second

instance : Append (Document σ) := ⟨andThen⟩

def space : Document σ := .text none " "

def styled (style : σ) (content : String) : Document σ := .text (some style) content

def concat (documents : List (Document σ)) : Document σ := documents.foldl andThen .empty

def indented (amount : Nat) : Document σ → Document σ
  | .empty => .empty
  | body => .nest amount body

def grouped : Document σ → Document σ
  | .empty => .empty
  | body => .group body

def separated (separator : Document σ) : List (Document σ) → Document σ
  | [] => .empty
  | first :: rest => rest.foldl (fun built next => built ++ separator ++ next) first

/-! ## Layout -/

/-- A document waiting to be laid out: the indentation of its line ends, and
whether it stands inside a group that goes on one line. -/
structure Pending (σ : Type) where
  indent : Nat
  flat : Bool
  document : Document σ

structure Fragment (σ : Type) where
  style : Option σ
  content : String
  deriving Repr, DecidableEq

def weight : Document σ → Nat
  | .empty | .text .. | .line => 1
  | .append first second => first.weight + second.weight + 2
  | .nest _ body | .group body => body.weight + 1

def weightAll : List (Document σ) → Nat
  | [] => 0
  | document :: rest => document.weight + weightAll rest

def weightPending : List (Pending σ) → Nat
  | [] => 0
  | next :: rest => next.document.weight + 1 + weightPending rest

/-- Whether the rest of the line fits. The documents `inner` come first, on
one line as long as `flat` holds; then the waiting documents follow in broken
form, up to the first line end among them. -/
def fits (width column : Nat) (flat : Bool) (inner : List (Document σ))
    (waiting : List (Pending σ)) : Bool :=
  match inner with
  | [] =>
      match waiting with
      | [] => true
      | next :: waiting => fits width column false [next.document] waiting
  | .empty :: inner => fits width column flat inner waiting
  | .text _ content :: inner =>
      let column := column + DisplayWidth.columns content
      column ≤ width && fits width column flat inner waiting
  | .line :: inner =>
      if flat then column + 1 ≤ width && fits width (column + 1) flat inner waiting else true
  | .append first second :: inner => fits width column flat (first :: second :: inner) waiting
  | .nest _ body :: inner => fits width column flat (body :: inner) waiting
  | .group body :: inner => fits width column flat (body :: inner) waiting
termination_by weightAll inner + weightPending waiting
decreasing_by all_goals simp only [weightAll, weightPending, weight]; omega

/-- Lay out the waiting documents from the given column on. A line end takes
the indentation of whatever stands next, or its own if nothing does. -/
def place (width column : Nat) (waiting : List (Pending σ)) : List (Fragment σ) :=
  match waiting with
  | [] => []
  | ⟨indent, flat, document⟩ :: waiting =>
      match document with
      | .empty => place width column waiting
      | .text style content =>
          ⟨style, content⟩ :: place width (column + DisplayWidth.columns content) waiting
      | .line =>
          if flat then
            ⟨none, " "⟩ :: place width (column + 1) waiting
          else
            let indent := (waiting.head?.map Pending.indent).getD indent
            ⟨none, "\n" ++ String.ofList (List.replicate indent ' ')⟩ ::
              place width indent waiting
      | .append first second =>
          place width column (⟨indent, flat, first⟩ :: ⟨indent, flat, second⟩ :: waiting)
      | .nest amount body => place width column (⟨indent + amount, flat, body⟩ :: waiting)
      | .group body =>
          let flat := flat || fits width column true [body] waiting
          place width column (⟨indent, flat, body⟩ :: waiting)
termination_by weightPending waiting
decreasing_by all_goals simp only [weightPending, weight]; omega

def layout (width : Nat) (document : Document σ) : List (Fragment σ) :=
  place width 0 [⟨0, false, document⟩]

def render (width : Nat) (document : Document σ) : String :=
  String.join ((document.layout width).map Fragment.content)

end Document

end SymbolicSafety
