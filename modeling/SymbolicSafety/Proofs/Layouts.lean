import SymbolicSafety.Grammar.Lexer
import SymbolicSafety.Layout.Document

namespace SymbolicSafety

/-! What a layout keeps of a document. Whatever the width, the texts come in
their order, and every break between them becomes some white space. -/

namespace Document

variable {σ : Type}

inductive Piece where
  | text (content : String)
  | gap

def pieces : Document σ → List Piece
  | .empty => []
  | .text _ content => [.text content]
  | .line => [.gap]
  | .append first second => first.pieces ++ second.pieces
  | .nest _ body | .group body => body.pieces

/-- The characters are those of the texts, with white space in each gap. -/
inductive Shows : List Piece → List Char → Prop where
  | nil : Shows [] []
  | text (content : String) {rest : List Piece} {characters : List Char} :
      Shows rest characters → Shows (.text content :: rest) (content.toList ++ characters)
  | gap {blanks : List Char} {rest : List Piece} {characters : List Char} :
      blanks ≠ [] → (∀ character ∈ blanks, isBlank character = true) → Shows rest characters →
      Shows (.gap :: rest) (blanks ++ characters)

theorem Shows.of_append {first second : List Piece} {characters : List Char}
    (shows' : Shows (first ++ second) characters) :
    ∃ left right, characters = left ++ right ∧ Shows first left ∧ Shows second right := by
  induction first generalizing characters with
  | nil => exact ⟨[], characters, rfl, .nil, shows'⟩
  | cons piece rest induction =>
      cases shows' with
      | text content later =>
          obtain ⟨left, right, rfl, before, after⟩ := induction later
          exact ⟨content.toList ++ left, right, (List.append_assoc ..).symm, .text content before,
            after⟩
      | gap nonempty blank later =>
          obtain ⟨left, right, rfl, before, after⟩ := induction later
          exact ⟨_ ++ left, right, (List.append_assoc ..).symm, .gap nonempty blank before, after⟩

/-! ## Pieces of composed documents -/

@[simp] theorem pieces_append (first second : Document σ) :
    (first ++ second).pieces = first.pieces ++ second.pieces := by
  have same : first ++ second = first.andThen second := rfl
  rw [same]
  cases first <;> cases second <;> simp [andThen, pieces]

@[simp] theorem pieces_indented (amount : Nat) (body : Document σ) :
    (body.indented amount).pieces = body.pieces := by
  cases body <;> rfl

@[simp] theorem pieces_grouped (body : Document σ) : body.grouped.pieces = body.pieces := by
  cases body <;> rfl

@[simp] theorem pieces_styled (style : σ) (content : String) :
    (styled style content).pieces = [.text content] := rfl

@[simp] theorem pieces_space : (space : Document σ).pieces = [.text " "] := rfl

@[simp] theorem pieces_line : (line : Document σ).pieces = [.gap] := rfl

@[simp] theorem pieces_concat (documents : List (Document σ)) :
    (concat documents).pieces = documents.flatMap pieces := by
  have built (start : Document σ) :
      (documents.foldl andThen start).pieces = start.pieces ++ documents.flatMap pieces := by
    induction documents generalizing start with
    | nil => simp
    | cons head rest induction =>
        have joined : (start.andThen head).pieces = start.pieces ++ head.pieces :=
          pieces_append start head
        simp [induction, joined]
  exact built .empty

@[simp] theorem pieces_separated (separator first : Document σ) (rest : List (Document σ)) :
    (separated separator (first :: rest)).pieces =
      first.pieces ++ rest.flatMap fun next => separator.pieces ++ next.pieces := by
  rw [separated]
  induction rest generalizing first with
  | nil => simp
  | cons head rest induction => simp [induction]

/-! ## Layouts -/

/-- Laying out turns each break into a blank or a line end. -/
theorem shows_place (width column : Nat) (waiting : List (Pending σ)) :
    Shows (waiting.flatMap fun next => next.document.pieces)
      ((place width column waiting).flatMap fun fragment => fragment.content.toList) := by
  fun_induction place width column waiting with
  | case1 => exact .nil
  | case2 column waiting indent flat induction => simpa [pieces] using induction
  | case3 column waiting indent flat style content induction =>
      simpa [pieces] using induction.text content
  | case4 column waiting indent induction =>
      have blank : ∀ character ∈ [' '], isBlank character = true :=
        List.all_eq_true.mp (by decide)
      simpa [pieces] using Shows.gap (by simp) blank induction
  | case5 column waiting indent flat broken inner induction =>
      have blank : ∀ character ∈ '\n' :: List.replicate inner ' ', isBlank character = true := by
        intro character member
        rcases List.mem_cons.mp member with rfl | inIndent
        · decide
        · rw [List.eq_of_mem_replicate inIndent]
          decide
      simpa [pieces] using Shows.gap (by simp) blank induction
  | case6 column waiting indent flat first second induction => simpa [pieces] using induction
  | case7 column waiting indent flat amount body induction => simpa [pieces] using induction
  | case8 column waiting indent flat body inner induction => simpa [pieces] using induction

theorem shows_render (width : Nat) (document : Document σ) :
    Shows document.pieces (document.render width).toList := by
  have placed := shows_place width 0 [(⟨0, false, document⟩ : Pending σ)]
  simpa [render, layout, List.flatMap_map] using placed

end Document

end SymbolicSafety
