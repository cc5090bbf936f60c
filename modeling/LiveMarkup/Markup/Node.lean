import LiveMarkup.Markup.Attributes

/-!
# Node trees

The tree of a piece of markup, and the way back to text. `Node.markup` writes a tree by recursion;
`Node.serialize` writes the same text from an explicit stack of pending work, so that the depth of
a tree costs memory and not call stack.
-/

namespace LiveMarkup

/-- A tag without its children. A void tag has none and no close tag. -/
structure TagHead where
  name : Text
  attributes : Attributes
  void : Bool
  deriving DecidableEq, Repr, Inhabited

/-- A node of a markup tree. A declaration is kept without its angle brackets. -/
inductive Node where
  | text (content : Text)
  | comment (body : Text)
  | declaration (body : Text)
  | tag (head : TagHead) (children : List Node)
  deriving Repr, Inhabited

namespace Node

/-- The names of elements that never have children. -/
def voidNames : List Text :=
  ["area", "base", "br", "col", "embed", "hr", "img", "input", "link", "meta", "param", "source",
    "track", "wbr"].map String.toList

/-- `name` is the name of a void element, in any case. -/
def isVoidName (name : Text) : Bool := voidNames.any (Text.sameLetters name)

/-! ## Writing -/

/-- An attribute value in quotes: double ones unless it holds one; then single ones, or the
entity for the double quote when it holds both kinds. -/
def quotedValue (value : Text) : Text :=
  if !value.contains '"' then '"' :: (value ++ ['"'])
  else if !value.contains '\'' then '\'' :: (value ++ ['\''])
  else '"' :: (Text.replaceChar '"' "&quot;".toList value ++ ['"'])

/-- An attribute with the space before it. -/
def attributeText (a : Text × Text) : Text := ' ' :: (a.1 ++ '=' :: quotedValue a.2)

/-- The open tag. -/
def openTag (head : TagHead) : Text :=
  '<' :: (head.name ++ (head.attributes.flatMap attributeText ++
    (if head.void then ['/', '>'] else ['>'])))

/-- The close tag of an element. -/
def closeTag (name : Text) : Text := '<' :: '/' :: (name ++ ['>'])

mutual

/-- The markup of one node: open tag, children, close tag. -/
def markup : Node → Text
  | .text content => content
  | .comment body => "<!--".toList ++ (body ++ "-->".toList)
  | .declaration body => '<' :: (body ++ ['>'])
  | .tag head children =>
    if head.void then openTag head
    else openTag head ++ (markupAll children ++ closeTag head.name)

/-- The markup of a row of nodes. -/
def markupAll : List Node → Text
  | [] => []
  | n :: ns => markup n ++ markupAll ns

end

mutual

/-- How many open and close tags and leaves a node is written with. -/
def weight : Node → Nat
  | .tag _ children => 2 + weightAll children
  | _ => 1

/-- The weight of a row of nodes. -/
def weightAll : List Node → Nat
  | [] => 0
  | n :: ns => weight n + weightAll ns

end

theorem weight_pos (n : Node) : 0 < n.weight := by
  cases n with
  | tag head children =>
    rw [weight]
    omega
  | _ => exact Nat.one_pos

/-- Pending work of the serializer: a node to write, or the close tag of an element whose children
have been written. -/
inductive Pending where
  | node (n : Node)
  | close (name : Text)

namespace Pending

/-- The nodes of a row, each to be written. -/
def ofNodes (nodes : List Node) : List Pending := nodes.map .node

/-- How much is left to write. -/
def weight : List Pending → Nat
  | [] => 0
  | .node n :: rest => n.weight + weight rest
  | .close _ :: rest => 1 + weight rest

theorem weight_ofNodes_append (nodes : List Node) (rest : List Pending) :
    weight (ofNodes nodes ++ rest) = weightAll nodes + weight rest := by
  induction nodes with
  | nil => simp [ofNodes, weightAll]
  | cons n nodes ih =>
    simp only [ofNodes, List.map_cons, List.cons_append, weight, weightAll] at ih ⊢
    omega

end Pending

/-- Do the pending work from the top of the stack down; `out` is what has been written, last
character first. -/
def serializeLoop (out : Text) : List Pending → Text
  | [] => out.reverse
  | .close name :: rest => serializeLoop ((closeTag name).reverseAux out) rest
  | .node (.text content) :: rest => serializeLoop (content.reverseAux out) rest
  | .node (.comment body) :: rest =>
    serializeLoop (("<!--".toList ++ (body ++ "-->".toList)).reverseAux out) rest
  | .node (.declaration body) :: rest =>
    serializeLoop (('<' :: (body ++ ['>'])).reverseAux out) rest
  | .node (.tag head children) :: rest =>
    let out := (openTag head).reverseAux out
    if head.void then serializeLoop out rest
    else serializeLoop out (Pending.ofNodes children ++ .close head.name :: rest)
termination_by stack => Pending.weight stack
decreasing_by
  all_goals simp only [Pending.weight, Pending.weight_ofNodes_append, weight]
  all_goals omega

/-- The markup of a row of nodes. -/
def serialize (nodes : List Node) : Text := serializeLoop [] (Pending.ofNodes nodes)

end Node

end LiveMarkup
