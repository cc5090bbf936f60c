import LiveMarkup.Hydration

/-!
# Elements in a forest

The tags of a forest that stand for registered elements, seen three ways: `bareAll` is the forest
without what these tags hold, `elementsAll` lists them with what they hold, and `nestingAll` says how
many of them stand inside one another.
-/

namespace LiveMarkup.Node

variable {H : Type}

mutual

/-- The node without what stands inside registered elements. -/
def bare (registry : Registry H) : Node → Node
  | .tag head children =>
    .tag head (if (registry.forTag? head).isSome then [] else bareAll registry children)
  | .text content => .text content
  | .comment body => .comment body
  | .declaration body => .declaration body

def bareAll (registry : Registry H) : List Node → List Node
  | [] => []
  | n :: ns => bare registry n :: bareAll registry ns

end

mutual

/-- The tags of registered elements with what they hold, in the order of the document. -/
def elements (registry : Registry H) : Node → List (TagHead × List Node)
  | .tag head children =>
    (if (registry.forTag? head).isSome then [(head, children)] else []) ++
      elementsAll registry children
  | .text _ | .comment _ | .declaration _ => []

def elementsAll (registry : Registry H) : List Node → List (TagHead × List Node)
  | [] => []
  | n :: ns => elements registry n ++ elementsAll registry ns

end

mutual

/-- The largest number of registered elements on a way from the node down to a leaf. -/
def nesting (registry : Registry H) : Node → Nat
  | .tag head children =>
    (if (registry.forTag? head).isSome then 1 else 0) + nestingAll registry children
  | .text _ | .comment _ | .declaration _ => 0

def nestingAll (registry : Registry H) : List Node → Nat
  | [] => 0
  | n :: ns => max (nesting registry n) (nestingAll registry ns)

end

section Rows

variable {registry : Registry H} {head : TagHead} {children ns : List Node} {n : Node}

theorem elementsAll_leaf (leaf : ∀ head children, n ≠ .tag head children) (ns : List Node) :
    elementsAll registry (n :: ns) = elementsAll registry ns := by
  cases n with
  | tag head children => exact absurd rfl (leaf head children)
  | _ => rfl

theorem nestingAll_leaf (leaf : ∀ head children, n ≠ .tag head children) (ns : List Node) :
    nestingAll registry (n :: ns) = nestingAll registry ns := by
  cases n with
  | tag head children => exact absurd rfl (leaf head children)
  | _ => exact Nat.zero_max _

theorem elementsAll_element {element : Element H} (found : registry.forTag? head = some element) :
    elementsAll registry (.tag head children :: ns) =
      (head, children) :: (elementsAll registry children ++ elementsAll registry ns) := by
  rw [elementsAll, elements, found]
  rfl

theorem elementsAll_plain (missing : registry.forTag? head = none) :
    elementsAll registry (.tag head children :: ns) =
      elementsAll registry children ++ elementsAll registry ns := by
  rw [elementsAll, elements, missing]
  rfl

theorem nestingAll_element {element : Element H} (found : registry.forTag? head = some element) :
    nestingAll registry (.tag head children :: ns) =
      max (1 + nestingAll registry children) (nestingAll registry ns) := by
  rw [nestingAll, nesting, found]
  rfl

theorem nestingAll_plain (missing : registry.forTag? head = none) :
    nestingAll registry (.tag head children :: ns) =
      max (nestingAll registry children) (nestingAll registry ns) := by
  rw [nestingAll, nesting, missing]
  show max (0 + _) _ = _
  rw [Nat.zero_add]

end Rows

end LiveMarkup.Node
