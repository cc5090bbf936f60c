import LiveMarkup.Markup.Outline
import LiveMarkup.Proofs.Markup.Building

/-!
# Writers

The serializer and the outline both work from a stack, so that a deep tree costs no call stack. What
they have still to write is told by the stack alone: each node that is on it, from the top down, is
written as the recursion over the tree writes it, whatever is below. So both write a row of nodes as
the recursion does, one node after the other.
-/

namespace LiveMarkup.Node

theorem markupAll_eq_flatMap (nodes : List Node) : markupAll nodes = nodes.flatMap markup := by
  induction nodes with
  | nil => rfl
  | cons n nodes ih => rw [markupAll, ih, List.flatMap_cons]

theorem outlineTextAll_eq_flatMap (depth : Nat) (nodes : List Node) :
    outlineTextAll depth nodes = nodes.flatMap (outlineText depth) := by
  induction nodes with
  | nil => rfl
  | cons n nodes ih => rw [outlineTextAll, ih, List.flatMap_cons]

/-- A node is shown on its line, and what is under it behind that, one step further in. -/
theorem outlineText_eq (depth : Nat) (n : Node) :
    outlineText depth n =
      outlineLine depth n ++ n.children.flatMap (outlineText (depth + 1)) := by
  cases n with
  | tag head children => rw [outlineText, outlineTextAll_eq_flatMap, Node.children]
  | _ => exact (List.append_nil _).symm

/-- The loop shows the nodes on its stack, each at its depth and with all that is under it, behind
what has been written. -/
theorem outlineLoop_eq (out : Text) (stack : List (Node × Nat)) :
    outlineLoop out stack = out.reverse ++ stack.flatMap fun p => outlineText p.2 p.1 := by
  fun_induction outlineLoop out stack with
  | case1 out => simp
  | case2 out n depth rest ih =>
    rw [ih, List.flatMap_cons, outlineText_eq]
    simp [atDepth, List.flatMap_map]

/-- The markup of a row of nodes is what the recursion over the tree writes for one node after the
other, and so is its outline; the markup of two rows behind each other is that of the one and then
that of the other. -/
theorem written_by_recursion (nodes : List Node) :
    serialize nodes = nodes.flatMap markup ∧
      (∀ before after, nodes = before ++ after →
        serialize nodes = serialize before ++ serialize after) ∧
      outline nodes = nodes.flatMap (outlineText 0) := by
  have serialized (row : List Node) : serialize row = row.flatMap markup := by
    rw [serialize_eq_markupAll, markupAll_eq_flatMap]
  refine ⟨serialized nodes, fun before after split => ?_, ?_⟩
  · rw [serialized, serialized before, serialized after, split, List.flatMap_append]
  · rw [outline, outlineLoop_eq]
    simp [atDepth, List.flatMap_map]

-- a void tag is written without its children, which the outline shows
example : serialize [.tag ⟨"br".toList, [], true⟩ [.text ['x']]] = "<br/>".toList ∧
    outline [.tag ⟨"br".toList, [], true⟩ [.text ['x']]] =
      "<br> (void)\n  text \"x\"\n".toList := by
  decide +kernel

end LiveMarkup.Node
