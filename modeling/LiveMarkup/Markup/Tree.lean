import LiveMarkup.Markup.Node
import LiveMarkup.Markup.Token

/-!
# Building trees

Reading markup never fails: malformed markup gives the closest tree. The text is first taken apart
into tokens, where the body of a script or style element is text up to its own close tag; then a
builder with a stack of open elements turns the tokens into nodes. A close tag pops up to the
nearest open element of its name and is passed over when there is none. Text that follows an open
tag or begins the document is kept as it is; after anything else blank text shrinks to one space
and goes away at the edges of the document.
-/

namespace LiveMarkup

namespace Node

/-! ## Tags -/

/-- The head of the open tag `source`, which runs from `<` to `>`. -/
def headOf (source : Text) : TagHead :=
  let inner := (source.drop 1).dropLast
  let selfClosing := inner.getLast? = some '/'
  let inner := if selfClosing then inner.dropLast else inner
  let inName (c : Char) : Bool := !(Text.isBlank c || c = '/')
  let name := inner.takeWhile inName
  ⟨name, Attributes.read (inner.dropWhile inName), selfClosing || isVoidName name⟩

/-- The name in the close tag `source`. -/
def closeNameOf (source : Text) : Text := Text.trim ((source.drop 2).dropLast)

/-- The body of an element of this name is text. -/
def isRawTextName (name : Text) : Bool :=
  Text.sameLetters name "script".toList || Text.sameLetters name "style".toList

/-- What a tag token does. -/
inductive TagRole where
  | opens (head : TagHead)
  | closes (name : Text)
  | declares (body : Text)
  deriving DecidableEq, Repr

/-- The role of the tag `source`. -/
def roleOf (source : Text) : TagRole :=
  match source with
  | '<' :: '/' :: _ => .closes (closeNameOf source)
  | '<' :: '!' :: _ => .declares ((source.drop 1).dropLast)
  | _ => .opens (headOf source)

/-! ## Tokens of a document -/

/-- Split a raw text body from its close tag: the body ends where `closing`, in lower case, is met
in any case, or at the end of the text. -/
def splitRawText (closing : Text) : Text → Text × Text
  | [] => ([], [])
  | c :: t =>
    if Text.startsLowered closing (c :: t) then ([], c :: t)
    else
      let p := splitRawText closing t
      (c :: p.1, p.2)

theorem append_splitRawText (closing t : Text) :
    (splitRawText closing t).1 ++ (splitRawText closing t).2 = t := by
  induction t with
  | nil => rfl
  | cons c t ih =>
    simp only [splitRawText]
    split
    · rfl
    · simp [ih]

theorem length_splitRawText_le (closing t : Text) :
    (splitRawText closing t).2.length ≤ t.length := by
  have h := congrArg List.length (append_splitRawText closing t)
  simp only [List.length_append] at h
  omega

/-- The marker at which the raw text body of the element that `token` opens ends, if it opens one
with such a body. -/
def rawTextEnd? (token : Option Token) : Option Text :=
  match token with
  | some (.tag source) =>
    match roleOf source with
    | .opens head =>
      if !head.void && isRawTextName head.name then some ('<' :: '/' :: Text.lower head.name)
      else none
    | _ => none
  | _ => none

/-- The tokens of a document: those of its markup, but with the body of a script or style element
as one text. -/
def documentTokens (t : Text) : List Token :=
  match t with
  | [] => []
  | c :: t =>
    let r := Token.lexer.step c t
    match rawTextEnd? r.token with
    | some closing =>
      let p := splitRawText closing r.rest
      r.token.toList ++ ((if p.1.isEmpty then [] else [.text p.1]) ++ documentTokens p.2)
    | none => r.token.toList ++ documentTokens r.rest
termination_by t.length
decreasing_by
  · have h := Token.lexer.length_rest_le c t
    exact Nat.lt_succ_of_le (Nat.le_trans (length_splitRawText_le _ _) h)
  · exact Nat.lt_succ_of_le (Token.lexer.length_rest_le c t)

/-! ## The builder -/

/-- What the most recent token was, for the treatment of blank text. -/
inductive Boundary where
  | start
  | opened
  | closed
  deriving DecidableEq, Repr

/-- An open element: its head and its children so far, the latest first. -/
structure Frame where
  head : TagHead
  children : List Node

/-- The element with its children in order. -/
def Frame.node (f : Frame) : Node := .tag f.head f.children.reverse

/-- A tree under construction. -/
structure Builder where
  /-- Open elements, the innermost first. -/
  frames : List Frame := []
  /-- Nodes outside all elements, the latest first. -/
  root : List Node := []
  boundary : Boundary := .start
  /-- Text that belongs to no node yet, last character first. -/
  pending : Text := []

namespace Builder

/-- Put `n` behind the latest child of the innermost open element. -/
def append (b : Builder) (n : Node) : Builder :=
  match b.frames with
  | [] => { b with root := n :: b.root }
  | f :: fs => { b with frames := { f with children := n :: f.children } :: fs }

/-- Turn pending text into a node. Blank text behind a closed tag, a void tag, a comment or a
declaration becomes one space, and nothing at either edge of the document. -/
def flush (b : Builder) (atEnd : Bool) : Builder :=
  match b.pending with
  | [] => b
  | _ :: _ =>
    let content := b.pending.reverse
    let b := { b with pending := [] }
    if b.boundary = .closed && content.all Text.isBlank then
      if atEnd || (b.frames.isEmpty && b.root.isEmpty) then b else b.append (.text [' '])
    else b.append (.text content)

/-- Append a node that has no children. -/
def leaf (b : Builder) (n : Node) : Builder :=
  { (b.flush false).append n with boundary := .closed }

/-- Take an open tag. -/
def openTag (b : Builder) (head : TagHead) : Builder :=
  if head.void then b.leaf (.tag head [])
  else
    let b := b.flush false
    { b with frames := ⟨head, []⟩ :: b.frames, boundary := .opened }

/-- Close frames up to the first one called `name`, which has to be there; `child` is the node of
the frame closed last. -/
def closeThrough (name : Text) (child : Option Node) (root : List Node) :
    List Frame → List Frame × List Node
  | [] => ([], child.toList ++ root)
  | f :: fs =>
    let n := Frame.node { f with children := child.toList ++ f.children }
    if Text.sameLetters f.head.name name then
      match fs with
      | [] => ([], n :: root)
      | g :: gs => ({ g with children := n :: g.children } :: gs, root)
    else closeThrough name (some n) root fs

/-- Take a close tag. Without an open element of its name it changes nothing: pending text stays
pending and the boundary stays what it was. -/
def close (b : Builder) (name : Text) : Builder :=
  if b.frames.any fun f => Text.sameLetters f.head.name name then
    let b := b.flush false
    let (frames, root) := closeThrough name none b.root b.frames
    { b with frames, root, boundary := .closed }
  else b

/-- Take one token. -/
def take (b : Builder) : Token → Builder
  | .text content => { b with pending := content.reverseAux b.pending }
  | .lone => { b with pending := '<' :: b.pending }
  | .comment body => b.leaf (.comment body)
  | .tag source =>
    match roleOf source with
    | .closes name => b.close name
    | .declares body => b.leaf (.declaration body)
    | .opens head => b.openTag head

/-- Close every frame. -/
def closeAll (child : Option Node) (root : List Node) : List Frame → List Node
  | [] => child.toList ++ root
  | f :: fs => closeAll (some (Frame.node { f with children := child.toList ++ f.children })) root fs

/-- The nodes of the document, once there are no more tokens. -/
def finish (b : Builder) : List Node :=
  let b := b.flush true
  (closeAll none b.root b.frames).reverse

end Builder

/-- The tree that a row of tokens spells. -/
def ofTokens (tokens : List Token) : List Node := (tokens.foldl Builder.take {}).finish

/-- The tree of a piece of markup. -/
def parse (t : Text) : List Node := ofTokens (documentTokens t)

end Node

end LiveMarkup
