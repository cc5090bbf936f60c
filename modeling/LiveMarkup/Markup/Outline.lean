import LiveMarkup.Markup.Node
import LiveMarkup.Text.Quoted

/-!
# Outlines

An outline shows a tree one node per line, children after their parent and two spaces further in.
Like the serializer it works from an explicit stack.
-/

namespace LiveMarkup.Node

/-- The indentation of a line. -/
def indent (depth : Nat) : Text := (List.replicate depth [' ', ' ']).flatten

/-- The attributes of a tag as an outline shows them. -/
def outlineAttribute (a : Text × Text) : Text := ' ' :: (a.1 ++ '=' :: Text.quoted a.2)

/-- The line of a node. -/
def outlineLine (depth : Nat) : Node → Text
  | .text content => indent depth ++ ("text ".toList ++ (Text.quoted content ++ ['\n']))
  | .comment body => indent depth ++ ("comment ".toList ++ (Text.quoted body ++ ['\n']))
  | .declaration body => indent depth ++ ("declaration ".toList ++ (Text.quoted body ++ ['\n']))
  | .tag head _ =>
    indent depth ++ '<' :: (head.name ++ '>' :: (head.attributes.flatMap outlineAttribute ++
      ((if head.void then " (void)".toList else []) ++ ['\n'])))

/-- The nodes under a node, which an outline shows for a void tag too. -/
def children : Node → List Node
  | .tag _ children => children
  | _ => []

mutual

/-- The lines of a node at `depth` and of all that is under it. -/
def outlineText (depth : Nat) : Node → Text
  | .tag head children =>
    outlineLine depth (.tag head children) ++ outlineTextAll (depth + 1) children
  | .text content => outlineLine depth (.text content)
  | .comment body => outlineLine depth (.comment body)
  | .declaration body => outlineLine depth (.declaration body)

/-- The lines of a row of nodes at `depth`. -/
def outlineTextAll (depth : Nat) : List Node → Text
  | [] => []
  | n :: ns => outlineText depth n ++ outlineTextAll depth ns

end

/-- The weight of a stack of nodes at their depths. -/
def stackWeight : List (Node × Nat) → Nat
  | [] => 0
  | (n, _) :: rest => n.weight + stackWeight rest

/-- The nodes of a row, all at `depth`. -/
def atDepth (depth : Nat) (nodes : List Node) : List (Node × Nat) := nodes.map fun n => (n, depth)

theorem stackWeight_atDepth_append (depth : Nat) (nodes : List Node) (rest : List (Node × Nat)) :
    stackWeight (atDepth depth nodes ++ rest) = weightAll nodes + stackWeight rest := by
  induction nodes with
  | nil => simp [atDepth, weightAll]
  | cons n nodes ih =>
    simp only [atDepth, List.map_cons, List.cons_append, stackWeight, weightAll] at ih ⊢
    omega

theorem weightAll_children_lt (n : Node) : weightAll n.children < n.weight := by
  cases n <;> simp [children, weight, weightAll]

/-- Show the stacked nodes from the top down; `out` is what has been written, last character
first. -/
def outlineLoop (out : Text) : List (Node × Nat) → Text
  | [] => out.reverse
  | (n, depth) :: rest =>
    outlineLoop ((outlineLine depth n).reverseAux out) (atDepth (depth + 1) n.children ++ rest)
termination_by stack => stackWeight stack
decreasing_by
  simp only [stackWeight, stackWeight_atDepth_append]
  have := weightAll_children_lt n
  omega

/-- The outline of a row of nodes. -/
def outline (nodes : List Node) : Text := outlineLoop [] (atDepth 0 nodes)

end LiveMarkup.Node
