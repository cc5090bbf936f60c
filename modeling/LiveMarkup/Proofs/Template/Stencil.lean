import LiveMarkup.Markup.Tree

/-!
# Stencils

A stencil is an element tree in which texts and attribute values are runs: literals with holes
between them. Written out and cut at its holes it gives the fragments of a template; with something
in each hole it gives a tree. A hole carries a label, so that what goes into it can be told by a
function on labels; when no label is used twice, that is one choice for each hole.
-/

namespace LiveMarkup

/-! ## Written-out markup -/

/-- A piece of written-out markup. -/
inductive Piece (α : Type) where
  | literal (t : Text)
  | hole (label : α)

namespace Piece

variable {α : Type}

/-- The texts between the holes: the first one, and the one behind each hole. -/
def cut : List (Piece α) → Text × List Text
  | [] => ([], [])
  | .literal t :: ps => (t ++ (cut ps).1, (cut ps).2)
  | .hole _ :: ps => ([], (cut ps).1 :: (cut ps).2)

/-- The labels of the holes in order. -/
def labels : List (Piece α) → List α
  | [] => []
  | .literal _ :: ps => labels ps
  | .hole a :: ps => a :: labels ps

@[simp] theorem labels_append (ps qs : List (Piece α)) :
    labels (ps ++ qs) = labels ps ++ labels qs := by
  induction ps with
  | nil => rfl
  | cons p ps ih => cases p <;> simp [labels, ih]

end Piece

/-! ## Runs -/

/-- Literals with holes between them; the literals are free of barred characters. -/
structure Run (α : Type) (barred : Char → Bool) where
  head : Text
  /-- Each hole with the literal behind it. -/
  tail : List (α × Text)
  head_plain : ∀ c ∈ head, barred c = false
  tail_plain : ∀ p ∈ tail, ∀ c ∈ p.2, barred c = false

namespace Run

variable {α : Type} {barred : Char → Bool}

/-- The holes of a run, each with the literal behind it, written out. -/
def tailPieces (tail : List (α × Text)) : List (Piece α) :=
  tail.flatMap fun p => [.hole p.1, .literal p.2]

/-- A run, written out. -/
def pieces (r : Run α barred) : List (Piece α) := .literal r.head :: tailPieces r.tail

/-- The holes of a run, filled, each with the literal behind it. -/
def fillTail (f : α → Text) (tail : List (α × Text)) : Text := tail.flatMap fun p => f p.1 ++ p.2

/-- The text of a run with its holes filled. -/
def fill (f : α → Text) (r : Run α barred) : Text := r.head ++ fillTail f r.tail

instance : Inhabited (Run α barred) where
  default :=
    { head := []
      tail := []
      head_plain := by simp
      tail_plain := by simp }

/-- The run that is nothing but a hole. -/
def single (a : α) : Run α barred where
  head := []
  tail := [(a, [])]
  head_plain _ h := nomatch h
  tail_plain p hp c hc := by
    rw [List.mem_singleton.mp hp] at hc
    exact nomatch hc

theorem fill_single (f : α → Text) (a : α) : (single a : Run α barred).fill f = f a := by
  simp [fill, single, fillTail]

end Run

/-! ## Stencils -/

namespace Stencil

/-- What the literals of a text are free of. -/
def isBarredInText (c : Char) : Bool := c = '<' || c = '>' || c = '='

/-- What the literals of an attribute value are free of. -/
def isBarredInValue (c : Char) : Bool := isBarredInText c || c = '"' || c = '\''

/-- A lower-case letter, a digit or a hyphen. -/
def isNameChar (c : Char) : Bool := c.isLower || c.isDigit || c = '-'

/-- A name that starts with a lower-case letter. -/
structure Name where
  text : Text
  start : ∃ c ∈ text.head?, c.isLower = true
  chars : ∀ c ∈ text, isNameChar c = true

/-- The name of an element that has children that are markup. -/
structure ElementName extends Name where
  not_void : Node.isVoidName text = false
  not_raw : Node.isRawTextName text = false

/-- Attributes under different names, each with its value. -/
structure AttributeRuns (α : Type) where
  entries : List (Name × Run α isBarredInValue)
  distinct : (entries.map fun a => a.1.text).Nodup

end Stencil

/-- An element tree with holes: texts with elements between them. -/
inductive Stencil (α : Type) where
  | text (run : Run α Stencil.isBarredInText)
  | element (before : Run α Stencil.isBarredInText) (name : Stencil.ElementName)
      (attributes : Stencil.AttributeRuns α) (children after : Stencil α)

namespace Stencil

variable {α : Type}

/-- An attribute, written out. -/
def attributePieces (a : Name × Run α isBarredInValue) : List (Piece α) :=
  .literal (' ' :: (a.1.text ++ ['=', '"'])) :: (a.2.pieces ++ [.literal ['"']])

/-- A stencil, written out. -/
def pieces : Stencil α → List (Piece α)
  | .text run => run.pieces
  | .element before name attributes children after =>
    before.pieces ++ .literal ('<' :: name.text) ::
      (attributes.entries.flatMap attributePieces ++ .literal ['>'] ::
        (children.pieces ++ .literal ('<' :: '/' :: (name.text ++ ['>'])) :: after.pieces))

/-- The fragments of a stencil: what is written between its holes. -/
def fragments (s : Stencil α) : List Text := (Piece.cut s.pieces).1 :: (Piece.cut s.pieces).2

/-- The labels of the holes of a stencil in the order in which they are written. -/
def holes (s : Stencil α) : List α := Piece.labels s.pieces

/-- The attributes with their holes filled. -/
def AttributeRuns.fill (f : α → Text) (attributes : AttributeRuns α) : Attributes :=
  attributes.entries.map fun a => (a.1.text, a.2.fill f)

theorem AttributeRuns.nodup_keys_fill (f : α → Text) (attributes : AttributeRuns α) :
    (Keyed.keys (attributes.fill f)).Nodup := by
  have hkeys : Keyed.keys (attributes.fill f) = attributes.entries.map fun a => a.1.text := by
    simp [Keyed.keys, AttributeRuns.fill]
  rw [hkeys]
  exact attributes.distinct

/-- The tree with its holes filled; `value` gives what goes into attribute values and `text` what
goes into texts. -/
def fill (value text : α → Text) : Stencil α → List Node
  | .text run => [.text (run.fill text)]
  | .element before name attributes children after =>
    .text (before.fill text) ::
      .tag ⟨name.text, attributes.fill value, false⟩ (children.fill value text) ::
        after.fill value text

end Stencil

/-! ## Trees without blank texts -/

namespace Node

mutual

/-- The node without the blank texts under it. -/
def dropBlank : Node → Node
  | .tag head children => .tag head (dropBlankAll children)
  | .text content => .text content
  | .comment body => .comment body
  | .declaration body => .declaration body

/-- The row without empty texts and texts of blanks, at every level. -/
def dropBlankAll : List Node → List Node
  | [] => []
  | .text content :: ns =>
    if content.all Text.isBlank then dropBlankAll ns else .text content :: dropBlankAll ns
  | n :: ns => dropBlank n :: dropBlankAll ns

end

end Node

end LiveMarkup
