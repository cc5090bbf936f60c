import LiveMarkup.Proofs.Markup.Apart
import LiveMarkup.Proofs.Markup.Marked
import LiveMarkup.Proofs.Template.Positions
import LiveMarkup.Proofs.Template.Stencil

/-!
# Drafts

A draft is a document with holes, block by block as it is written: texts, comments, tags, and script
and style elements with their bodies have holes, and static markup stands between them. The blocks
carry what keeps them apart for a reader of markup. Beyond that they carry what keeps the template
scanner with the reader, which goes by the last angle bracket outside comments and by the attribute
that begins first: before a hole of a tag no `>` stands in it, before one of a text or a body no `<`
is left open, and nothing before an attribute with holes is written like another that runs on into
it (`Row`).
-/

namespace LiveMarkup

/-! ## Pieces with their holes filled -/

namespace Piece

variable {α : Type}

/-- What is written when the holes are filled. -/
def fill (f : α → Text) : List (Piece α) → Text
  | [] => []
  | .literal t :: ps => t ++ fill f ps
  | .hole a :: ps => f a ++ fill f ps

@[simp] theorem fill_append (f : α → Text) (ps qs : List (Piece α)) :
    fill f (ps ++ qs) = fill f ps ++ fill f qs := by
  induction ps with
  | nil => rfl
  | cons p ps ih => cases p <;> simp [fill, ih]

end Piece

namespace Run

variable {α : Type} {barred : Char → Bool}

/-- The literals of a run. -/
def literals (r : Run α barred) : List Text := r.head :: r.tail.map Prod.snd

/-- The literal behind the last hole of a run. -/
def last (r : Run α barred) : Text := r.literals.getLast (List.cons_ne_nil _ _)

/-- The labels of the holes of a run in order. -/
def labels (r : Run α barred) : List α := r.tail.map Prod.fst

theorem fill_tailPieces (f : α → Text) (tail : List (α × Text)) :
    Piece.fill f (tailPieces tail) = fillTail f tail := by
  induction tail with
  | nil => rfl
  | cons p tail ih =>
    have hpieces : tailPieces (p :: tail) = .hole p.1 :: .literal p.2 :: tailPieces tail := rfl
    rw [hpieces, Piece.fill, Piece.fill, ih]
    simp [fillTail]

theorem fill_pieces (f : α → Text) (r : Run α barred) : Piece.fill f r.pieces = r.fill f := by
  rw [pieces, Piece.fill, fill_tailPieces, fill]

theorem labels_pieces (r : Run α barred) : Piece.labels r.pieces = r.labels := by
  have htail : ∀ tail : List (α × Text), Piece.labels (tailPieces tail) = tail.map Prod.fst := by
    intro tail
    induction tail with
    | nil => rfl
    | cons p tail ih => exact congrArg (p.1 :: ·) ih
  exact htail r.tail

end Run

namespace Draft

variable {α : Type}

/-- The text that stands behind the last hole, when `pre` stands before. -/
def behind (pre : Text) : List (Piece α) → Text
  | [] => pre
  | .literal t :: ps => behind (pre ++ t) ps
  | .hole _ :: ps => behind [] ps

theorem behind_append (pre : Text) (ps qs : List (Piece α)) :
    behind pre (ps ++ qs) = behind (behind pre ps) qs := by
  induction ps generalizing pre with
  | nil => rfl
  | cons p ps ih => cases p <;> exact ih _

/-- Where a hole is. -/
inductive Site where
  | text
  | comment
  /-- In the body of a script or style element. -/
  | body
  /-- In the value of the attribute of this name. -/
  | value (key : Text)
  deriving DecidableEq, Repr

/-! ## Open tags -/

/-- Static text inside an open tag: nothing, or whole attributes with a space before them. -/
structure Stretch where
  text : Text
  spaced : ∀ c ∈ text.head?, Text.isSpace c = true
  uncommented : Delimiter.Uncommented text
  balanced : Token.quoteAfter? none text = some none
  complete : (AttributeToken.lexer.tokens text).getLast? ≠ some .equals

/-- No text at all. -/
def Stretch.empty : Stretch where
  text := []
  spaced := by simp
  uncommented := rfl
  balanced := rfl
  complete := by simp

/-- The attributes that a stretch spells. -/
def Stretch.pairs (s : Stretch) : List (Text × Text) :=
  Attributes.pairs (AttributeToken.lexer.tokens s.text)

/-- A value without quotes. It has one hole. -/
structure Unquoted (α : Type) where
  left : Text
  label : α
  right : Text
  left_word : ∀ c ∈ left, AttributeToken.isWordChar c = true
  right_word : ∀ c ∈ right, AttributeToken.isWordChar c = true

/-- A value between quotes that has holes. -/
structure Quoted (α : Type) where
  quote : Char
  run : Run α fun c => c = quote
  isQuote : quote = '"' ∨ quote = '\''
  hole : run.tail ≠ []
  not_closed : '>' ∉ run.head
  uncommented : Delimiter.Uncommented run.head

/-- The value of an attribute with holes. -/
inductive AttributeValue (α : Type) where
  | unquoted (v : Unquoted α)
  | quoted (v : Quoted α)

/-- An attribute with holes in its value, and the space before it. -/
structure Attribute (α : Type) where
  leading : Char
  key : Text
  gap : Text
  gap' : Text
  value : AttributeValue α
  leading_space : Text.isSpace leading = true
  isKey : OpenAttribute.IsKey key
  key_word : ∀ c ∈ key, AttributeToken.isWordChar c = true
  gap_space : ∀ c ∈ gap, Text.isSpace c = true
  gap'_space : ∀ c ∈ gap', Text.isSpace c = true

namespace AttributeValue

/-- A value, written out with its quotes. -/
def pieces : AttributeValue α → List (Piece α)
  | .unquoted v => [.literal v.left, .hole v.label, .literal v.right]
  | .quoted v => .literal [v.quote] :: (v.run.pieces ++ [.literal [v.quote]])

/-- The labels of the holes of a value. -/
def labels : AttributeValue α → List α
  | .unquoted v => [v.label]
  | .quoted v => v.run.labels

/-- A value with its holes filled, without its quotes. -/
def fill (f : α → Text) : AttributeValue α → Text
  | .unquoted v => v.left ++ (f v.label ++ v.right)
  | .quoted v => v.run.fill f

/-- The static texts of a value in which a `<` names a tag for the scanner. -/
def statics : AttributeValue α → List Text
  | .unquoted _ => []
  | .quoted v => [v.run.head]

theorem labels_pieces (v : AttributeValue α) : Piece.labels v.pieces = v.labels := by
  cases v with
  | unquoted v => rfl
  | quoted v => simp [pieces, Piece.labels, Run.labels_pieces, labels]

/-- What of a value the scanner goes on with: a value between quotes is taken whole. -/
def behind : AttributeValue α → Text
  | .unquoted v => v.right
  | .quoted _ => []

end AttributeValue

namespace Attribute

/-- What is written before the value. -/
def head (a : Attribute α) : Text := a.leading :: (a.key ++ (a.gap ++ '=' :: a.gap'))

/-- An attribute, written out. -/
def pieces (a : Attribute α) : List (Piece α) := .literal a.head :: a.value.pieces

/-- The holes of an attribute. -/
def holes (a : Attribute α) : List (α × Site) := a.value.labels.map fun l => (l, .value a.key)

theorem labels_holes (a : Attribute α) : a.holes.map Prod.fst = a.value.labels := by
  simp [holes, Function.comp_def]

end Attribute

/-- Attributes with holes, each with the static text before it. -/
abbrev Insides (α : Type) := List (Stretch × Attribute α)

namespace Insides

/-- Attributes with holes, written out. -/
def pieces (insides : Insides α) : List (Piece α) :=
  insides.flatMap fun p => .literal p.1.text :: p.2.pieces

/-- The holes of attributes. -/
def holes (insides : Insides α) : List (α × Site) := insides.flatMap fun p => p.2.holes

theorem labels_holes_cons (p : Stretch × Attribute α) (insides : Insides α) :
    (holes (p :: insides)).map Prod.fst = p.2.value.labels ++ (holes insides).map Prod.fst := by
  rw [holes, List.flatMap_cons, List.map_append, p.2.labels_holes]
  rfl

theorem labels_pieces (insides : Insides α) :
    Piece.labels insides.pieces = insides.holes.map Prod.fst := by
  induction insides with
  | nil => rfl
  | cons p insides ih =>
    rw [labels_holes_cons, ← ih, ← p.2.value.labels_pieces, ← Piece.labels_append]
    rfl

/-- The names of all attributes. -/
def keys (insides : Insides α) (last : Stretch) : List Text :=
  insides.flatMap (fun p => Keyed.keys p.1.pairs ++ [p.2.key]) ++ Keyed.keys last.pairs

/-- No attribute with holes is given a value again. -/
def Fresh : Insides α → Stretch → Prop
  | [], _ => True
  | p :: insides, last => p.2.key ∉ keys insides last ∧ Fresh insides last

end Insides

/-- An open tag: its name, attributes with holes and static text around them, and maybe a slash. -/
structure OpenTag (α : Type) where
  name : Text
  insides : Insides α
  last : Stretch
  slash : Bool
  name_start : ∃ c ∈ name.head?, Text.isAlphanum c = true ∨ c = '-'
  name_chars : ∀ c ∈ name, Node.isNameChar c = true ∧ Token.isPlain c = true ∧ c ≠ '<'
  opened : ∀ p ∈ insides, '>' ∉ p.1.text
  no_slash : (behind name (insides.pieces ++ [.literal last.text])).getLast? ≠ some '/'
  fresh : insides.Fresh last

namespace OpenTag

/-- The tag has no children. -/
def void (t : OpenTag α) : Bool := t.slash || Node.isVoidName t.name

/-- The tag opens an element whose body is text. -/
def isRaw (t : OpenTag α) : Bool := !t.void && Node.isRawTextName t.name

/-- What closes the tag. -/
def close (t : OpenTag α) : Text := t.last.text ++ ((if t.slash then ['/'] else []) ++ ['>'])

/-- A tag, written out. -/
def pieces (t : OpenTag α) : List (Piece α) :=
  .literal ('<' :: t.name) :: (t.insides.pieces ++ [.literal t.close])

/-- The holes of a tag. -/
def holes (t : OpenTag α) : List (α × Site) := t.insides.holes

theorem labels_pieces (t : OpenTag α) : Piece.labels t.pieces = t.holes.map Prod.fst := by
  rw [pieces, Piece.labels, Piece.labels_append, Insides.labels_pieces]
  exact List.append_nil _

/-- The static texts of a tag in which a `<` names a tag for the scanner. -/
def statics (t : OpenTag α) : List Text :=
  ('<' :: t.name) :: (t.insides.flatMap (fun p => p.1.text :: p.2.value.statics) ++ [t.last.text])

end OpenTag

/-! ## Blocks -/

/-- Static markup that is read by itself. It may leave a `<` open that begins no tag, but no
comment. -/
structure Passage where
  source : Text
  tokens : List Token
  reads : Node.Reads source tokens
  uncommented : Delimiter.Uncommented source

/-- The passage leaves a `<` open. -/
def Passage.stray (p : Passage) : Bool := Delimiter.endsInTag false p.source

/-- A tag without holes. -/
def Passage.tag (inside : Text) (start : Token.startsTag (inside ++ ['>']) = true)
    (balanced : Token.quoteAfter? none inside = some none)
    (not_raw : Node.rawTextEnd? (some (.tag ('<' :: (inside ++ ['>'])))) = none)
    (uncommented : Delimiter.Uncommented ('<' :: (inside ++ ['>']))) : Passage where
  source := '<' :: (inside ++ ['>'])
  tokens := [.tag ('<' :: (inside ++ ['>']))]
  reads := Node.reads_tag start balanced not_raw
  uncommented := uncommented

/-- The inside of a comment with holes. -/
structure CommentRun (α : Type) where
  run : Run α fun _ => false
  not_closed : ∀ s ∈ run.literals, ¬Token.commentClose <:+: s

/-- A script or style element with holes, up to its close tag. No `<` is left open before a hole of
the body, and no word in a hole makes a close tag. -/
structure RawOpening (α : Type) where
  openTag : OpenTag α
  body : Run α fun _ => false
  isRaw : openTag.isRaw = true
  settled : ∀ s ∈ body.literals.dropLast, Delimiter.Settled s
  unmarked : ∀ s ∈ body.literals, ∀ w : Word, Node.Unmarked openTag.name (s ++ w.text)

/-- A script or style element with holes. -/
structure RawElement (α : Type) extends RawOpening α where
  close : Passage
  uncommented : Delimiter.Uncommented body.last
  closes : Text.startsLowered (Node.rawTextMark openTag.name) close.source = true

/-- A close tag begins with a `<` and a slash. -/
theorem RawElement.exists_close (e : RawElement α) : ∃ s, e.close.source = '<' :: '/' :: s := by
  obtain ⟨s, hs, hrest⟩ := Text.exists_of_startsLowered rfl e.closes
  obtain ⟨s', rfl, -⟩ := Text.exists_of_startsLowered rfl hrest
  exact ⟨s', hs⟩

/-- One thing that is written. -/
inductive Block (α : Type) where
  | text (run : Run α fun c => c = '<')
  | static (p : Passage)
  | comment (inside : CommentRun α)
  | tag (t : OpenTag α) (not_raw : t.isRaw = false)
  | raw (e : RawElement α)

/-- What may stand at the end: static text, of which nothing is asked, or a comment or a script or
style element that is not closed. -/
inductive Ending (α : Type) where
  | static (s : Text)
  | comment (inside : CommentRun α)
  | raw (e : RawOpening α)

namespace CommentRun

/-- A comment without its closing mark, written out. -/
def pieces (inside : CommentRun α) : List (Piece α) :=
  .literal Token.commentOpen :: inside.run.pieces

/-- The holes of a comment. -/
def holes (inside : CommentRun α) : List (α × Site) :=
  inside.run.labels.map fun a => (a, .comment)

end CommentRun

namespace RawOpening

/-- A script or style element without its close tag, written out. -/
def pieces (e : RawOpening α) : List (Piece α) := e.openTag.pieces ++ e.body.pieces

/-- The holes of a script or style element. -/
def holes (e : RawOpening α) : List (α × Site) :=
  e.openTag.holes ++ e.body.labels.map fun a => (a, .body)

end RawOpening

namespace Block

/-- A block, written out. -/
def pieces : Block α → List (Piece α)
  | .text run => run.pieces
  | .static p => [.literal p.source]
  | .comment inside => inside.pieces ++ [.literal Token.commentClose]
  | .tag t _ => t.pieces
  | .raw e => e.pieces ++ [.literal e.close.source]

/-- The holes of a block, each with where it is. -/
def holes : Block α → List (α × Site)
  | .text run => run.labels.map fun a => (a, .text)
  | .static _ => []
  | .comment inside => inside.holes
  | .tag t _ => t.holes
  | .raw e => e.holes

/-- The static texts of a block in which a `<` names a tag for the scanner. The open tag of a script
or style element is left out: it gives the element its name. -/
def statics : Block α → List Text
  | .text _ => []
  | .static p => [p.source]
  | .comment inside => inside.run.literals
  | .tag t _ => t.statics
  | .raw e => [e.close.source]

/-- The block leaves a `<` open. -/
def stray : Block α → Bool
  | .static p => p.stray
  | .raw e => e.close.stray
  | _ => false

end Block

namespace Ending

/-- An ending, written out. -/
def pieces : Ending α → List (Piece α)
  | .static s => [.literal s]
  | .comment inside => inside.pieces
  | .raw e => e.pieces

/-- The holes of an ending. -/
def holes : Ending α → List (α × Site)
  | .static _ => []
  | .comment inside => inside.holes
  | .raw e => e.holes

/-- The static texts of an ending in which a `<` names a tag for a part. -/
def statics : Ending α → List Text
  | .static _ => []
  | .comment inside => inside.run.literals
  | .raw _ => []

end Ending

/-! ## Labels -/

theorem map_fst_site (site : Site) (labels : List α) :
    (labels.map fun a => (a, site)).map Prod.fst = labels := by
  simp [Function.comp_def]

theorem CommentRun.labels_pieces (inside : CommentRun α) :
    Piece.labels inside.pieces = inside.holes.map Prod.fst := by
  rw [pieces, holes, map_fst_site, Piece.labels, Run.labels_pieces]

theorem RawOpening.labels_pieces (e : RawOpening α) :
    Piece.labels e.pieces = e.holes.map Prod.fst := by
  rw [pieces, holes, List.map_append, map_fst_site, Piece.labels_append, e.openTag.labels_pieces,
    Run.labels_pieces]

theorem Block.labels_pieces (b : Block α) : Piece.labels b.pieces = b.holes.map Prod.fst := by
  have hliteral : ∀ (ps : List (Piece α)) (s : Text),
      Piece.labels (ps ++ [.literal s]) = Piece.labels ps := by simp [Piece.labels]
  cases b with
  | text run => rw [pieces, holes, map_fst_site, Run.labels_pieces]
  | static p => rfl
  | comment inside => rw [pieces, hliteral, inside.labels_pieces, holes]
  | tag t not_raw => exact t.labels_pieces
  | raw e => rw [pieces, hliteral, e.labels_pieces, holes]

theorem Ending.labels_pieces (e : Ending α) : Piece.labels e.pieces = e.holes.map Prod.fst := by
  cases e with
  | static s => rfl
  | comment inside => exact inside.labels_pieces
  | raw e => exact e.labels_pieces

/-! ## What the scanner goes on with -/

/-- What the scanner goes on with before every attribute with holes is closed, when `pre` stands
before the first. -/
def Insides.LeadsClosed (pre : Text) : Insides α → Prop
  | [] => True
  | p :: insides =>
    OpenAttribute.Closed (pre ++ p.1.text) ∧ LeadsClosed p.2.value.behind insides

/-- What the scanner goes on with behind the attributes. -/
def Insides.behind (pre : Text) : Insides α → Text
  | [] => pre
  | p :: insides => Insides.behind p.2.value.behind insides

namespace OpenTag

/-- What stands before the attributes with holes of a tag is closed. -/
def LeadsClosed (pre : Text) (t : OpenTag α) : Prop := t.insides.LeadsClosed (pre ++ '<' :: t.name)

/-- What the scanner goes on with behind a tag. -/
def behind (pre : Text) (t : OpenTag α) : Text :=
  t.insides.behind (pre ++ '<' :: t.name) ++ t.close

end OpenTag

namespace Block

/-- What the scanner goes on with behind a block. -/
def behind (pre : Text) : Block α → Text
  | .tag t _ => t.behind pre
  | .raw e => Draft.behind (e.openTag.behind pre) (e.body.pieces ++ [.literal e.close.source])
  | b => Draft.behind pre b.pieces

/-- A block may come next: when a `<` is open, only a comment or a tag does, and what stands before
attributes with holes is closed. -/
def Fits (stray : Bool) (pre : Text) : Block α → Prop
  | .text _ | .static _ => stray = false
  | .comment _ => True
  | .tag t _ => t.LeadsClosed pre
  | .raw e => e.openTag.LeadsClosed pre

end Block

/-- An ending may come next. -/
def Ending.Fits (stray : Bool) (pre : Text) : Ending α → Prop
  | .static _ => stray = false
  | .comment _ => True
  | .raw e => e.openTag.LeadsClosed pre

/-- Each block of a row may come next, and the ending at last. -/
def Row (ending : Ending α) (stray : Bool) (pre : Text) : List (Block α) → Prop
  | [] => ending.Fits stray pre
  | b :: bs => b.Fits stray pre ∧ Row ending b.stray (b.behind pre) bs

end Draft

/-- A document with holes. -/
structure Draft (α : Type) where
  blocks : List (Draft.Block α)
  ending : Draft.Ending α
  row : Draft.Row ending false [] blocks
  distinct : ((blocks.flatMap Draft.Block.holes ++ ending.holes).map Prod.fst).Nodup

namespace Draft

variable {α : Type}

/-- A draft, written out. -/
def pieces (d : Draft α) : List (Piece α) := d.blocks.flatMap Block.pieces ++ d.ending.pieces

/-- The fragments of a draft: what is written between its holes. -/
def fragments (d : Draft α) : List Text := (Piece.cut d.pieces).1 :: (Piece.cut d.pieces).2

/-- The holes of a draft in the order in which they are written, each with where it is. -/
def holes (d : Draft α) : List (α × Site) := d.blocks.flatMap Block.holes ++ d.ending.holes

/-- The static texts of a draft in which a `<` names a tag for the scanner. -/
def statics (d : Draft α) : List Text := d.blocks.flatMap Block.statics ++ d.ending.statics

end Draft

end LiveMarkup
