import Mathlib.Data.List.ModifyLast
import LiveMarkup.Proofs.Markup.Building

/-!
# How trees grow

The tree of a builder is the tree that its open elements and finished nodes make when nothing more
comes. Every token lets this tree grow at one place only, at the end of the row that is as deep as
the builder has open elements (`tree_take`); what is added there depends on the pending text, the
boundary and the names of the open elements, and on nothing else of the builder (`Alike`).
-/

namespace LiveMarkup

namespace Node

/-- The row `row` with `ns` at the end of the row that is `depth` levels down its right edge. -/
def grow (ns : List Node) : (depth : Nat) → (row : List Node) → List Node
  | 0, row => row ++ ns
  | depth + 1, row => row.modifyLast fun n =>
    match n with
    | .tag head children => .tag head (grow ns depth children)
    | n => n

theorem grow_nil_row (ns : List Node) (depth : Nat) : grow ns (depth + 1) [] = [] := rfl

theorem grow_concat_tag (ns : List Node) (depth : Nat) (row : List Node) (head : TagHead)
    (children : List Node) : grow ns (depth + 1) (row ++ [.tag head children]) =
      row ++ [.tag head (grow ns depth children)] := by
  rw [grow, List.modifyLast_concat]

/-- Growth is at the right edge. -/
theorem grow_append {row : List Node} (h : row ≠ []) (ns : List Node) (depth : Nat)
    (before : List Node) : grow ns depth (before ++ row) = before ++ grow ns depth row := by
  cases depth with
  | zero => rw [grow, grow, List.append_assoc]
  | succ depth => rw [grow, grow, List.modifyLast_append_of_right_ne_nil _ _ _ h]

/-- What stands behind a node grows apart from it, unless the row ends with the node and it is
deeper than the row that grows. -/
theorem grow_append_cons (ns : List Node) {depth : Nat} (before : List Node) (n : Node)
    {after : List Node} (h : depth = 0 ∨ after ≠ []) :
    grow ns depth (before ++ n :: after) = before ++ n :: grow ns depth after := by
  rcases h with rfl | h
  · simp [grow]
  · have hgrow := grow_append h ns depth (before ++ [n])
    simpa using hgrow

/-- Only tags grow inside. -/
theorem grow_append_leaf (ns : List Node) (depth : Nat) (before : List Node) {n : Node}
    (hn : ∀ head children, n ≠ .tag head children) (after : List Node) :
    grow ns depth (before ++ n :: after) = before ++ n :: grow ns depth after := by
  by_cases h : depth = 0 ∨ after ≠ []
  · exact grow_append_cons ns before n h
  · obtain ⟨hdepth, hafter⟩ := not_or.mp h
    obtain ⟨depth, rfl⟩ := Nat.exists_eq_succ_of_ne_zero hdepth
    rw [Classical.not_not.mp hafter, grow, grow_nil_row, List.modifyLast_concat]
    cases n with
    | tag head children => exact absurd rfl (hn head children)
    | _ => rfl

theorem grow_grow (ns ms : List Node) (depth : Nat) (row : List Node) :
    grow ms depth (grow ns depth row) = grow (ns ++ ms) depth row := by
  induction depth generalizing row with
  | zero => rw [grow, grow, grow, List.append_assoc]
  | succ depth ih =>
    rcases List.eq_nil_or_concat row with rfl | ⟨row, n, rfl⟩
    · rfl
    · rw [List.concat_eq_append]
      cases n with
      | tag head children => rw [grow_concat_tag, grow_concat_tag, grow_concat_tag, ih]
      | _ => simp only [grow, List.modifyLast_concat]

theorem grow_nil (depth : Nat) (row : List Node) : grow [] depth row = row := by
  induction depth generalizing row with
  | zero => rw [grow, List.append_nil]
  | succ depth ih =>
    rcases List.eq_nil_or_concat row with rfl | ⟨row, n, rfl⟩
    · rfl
    · rw [List.concat_eq_append]
      cases n with
      | tag head children => rw [grow_concat_tag, ih]
      | _ => simp only [grow, List.modifyLast_concat]

namespace Builder

/-- The tree when nothing more comes and the pending text is left out. -/
def tree (b : Builder) : List Node := (closeAll none b.root b.frames).reverse

/-- The innermost open element is as deep in the tree as there are open elements. -/
theorem reverse_closeAll_grow (ns : List Node) (depth : Nat) (head : TagHead)
    (children root : List Node) (frames : List Frame) :
    (closeAll (some (.tag head (grow ns depth children))) root frames).reverse =
      grow ns (depth + 1 + frames.length)
        (closeAll (some (.tag head children)) root frames).reverse := by
  induction frames generalizing depth head children with
  | nil => simp [closeAll, grow_concat_tag]
  | cons f fs ih =>
    have hnode : ∀ n, Frame.node { f with children := (some n).toList ++ f.children } =
        .tag f.head (f.children.reverse ++ [n]) := by simp [Frame.node]
    rw [closeAll, closeAll, hnode, hnode, ← grow_concat_tag, ih, List.length_cons]
    congr 1
    omega

theorem tree_settled (b : Builder) (boundary : Boundary) (ns : List Node) :
    (b.settled boundary ns).tree = grow ns b.frames.length b.tree := by
  rcases b with ⟨_ | ⟨f, fs⟩, root, _, pending⟩
  · simp [tree, settled, appendAll, closeAll, grow]
  · have hgrow := reverse_closeAll_grow ns 0 f.head f.children.reverse root fs
    simpa [tree, settled, appendAll, closeAll, Frame.node, grow, Nat.add_comm] using hgrow

theorem tree_entered (b : Builder) (head : TagHead) :
    (b.entered head).tree = ((b.flush false).settled .closed [.tag head []]).tree := by
  rcases hflush : b.flush false with ⟨_ | ⟨f, fs⟩, root, boundary, pending⟩
  · simp [tree, entered, settled, appendAll, closeAll, Frame.node, hflush]
  · simp [tree, entered, settled, appendAll, closeAll, Frame.node, hflush]

/-- Closing elements changes no tree. -/
theorem closeAll_closeThrough {name : Text} {frames : List Frame}
    (h : frames.any (fun f => Text.sameLetters f.head.name name) = true) (child : Option Node)
    (root : List Node) :
    closeAll none (closeThrough name child root frames).2 (closeThrough name child root frames).1 =
      closeAll child root frames := by
  induction frames generalizing child with
  | nil => contradiction
  | cons f fs ih =>
    by_cases hsame : Text.sameLetters f.head.name name = true
    · cases fs <;> simp [closeThrough, closeAll, hsame]
    · have hrest : fs.any (fun f => Text.sameLetters f.head.name name) = true := by
        simpa [hsame] using h
      simp only [closeThrough, hsame, closeAll]
      exact ih hrest _

/-! ## What a token adds -/

/-- There is an open element of the name. -/
def hasOpen (b : Builder) (name : Text) : Bool :=
  b.frames.any fun f => Text.sameLetters f.head.name name

theorem hasOpen_flush (b : Builder) (atEnd : Bool) (name : Text) :
    (b.flush atEnd).hasOpen name = b.hasOpen name := by
  obtain ⟨ns, hns⟩ := exists_flush b atEnd
  rw [hns]
  exact any_settled b.boundary ns fun h => Text.sameLetters h.name name

/-- The nodes that a token puts at the end of the innermost row. -/
def added (b : Builder) (token : Token) : List Node :=
  let texts := textNodes b.boundary false b.pending.reverse
  match token with
  | .text _ | .lone => []
  | .comment body => texts ++ [.comment body]
  | .tag source =>
    match roleOf source with
    | .closes name => if b.hasOpen name then texts else []
    | .declares body => texts ++ [.declaration body]
    | .opens head => texts ++ [.tag head []]

theorem tree_flush {b : Builder} (hb : b.Ready) (atEnd : Bool) : (b.flush atEnd).tree =
    grow (textNodes b.boundary atEnd b.pending.reverse) b.frames.length b.tree := by
  rw [flush_eq hb, tree_settled]

theorem tree_leaf {b : Builder} (hb : b.Ready) (n : Node) : (b.leaf n).tree =
    grow (textNodes b.boundary false b.pending.reverse ++ [n]) b.frames.length b.tree := by
  rw [leaf_eq hb, tree_settled]

theorem length_frames_flush (b : Builder) (atEnd : Bool) :
    (b.flush atEnd).frames.length = b.frames.length := by
  obtain ⟨ns, hns⟩ := exists_flush b atEnd
  rw [hns]
  rcases b with ⟨_ | ⟨f, fs⟩, root, _, pending⟩ <;> rfl

theorem tree_openTag {b : Builder} (hb : b.Ready) (head : TagHead) : (b.openTag head).tree =
    grow (textNodes b.boundary false b.pending.reverse ++ [.tag head []]) b.frames.length
      b.tree := by
  unfold openTag
  split
  · rw [tree_leaf hb]
  · have hentered := tree_entered b head
    rw [tree_settled, tree_flush hb, length_frames_flush, grow_grow] at hentered
    exact hentered

theorem tree_close {b : Builder} (hb : b.Ready) (name : Text) : (b.close name).tree =
    grow (if b.hasOpen name then textNodes b.boundary false b.pending.reverse else [])
      b.frames.length b.tree := by
  unfold close
  split
  · next hopen =>
    rw [hasOpen, if_pos hopen, ← tree_flush hb]
    exact congrArg List.reverse
      (closeAll_closeThrough ((hasOpen_flush b false name).trans hopen) none _)
  · next hopen =>
    rw [hasOpen, if_neg hopen, grow_nil]

/-- A token lets the tree grow at the end of the innermost row. -/
theorem tree_take {b : Builder} (hb : b.Ready) (token : Token) :
    (b.take token).tree = grow (b.added token) b.frames.length b.tree := by
  cases token with
  | text content => rw [added, grow_nil]; rfl
  | lone => rw [added, grow_nil]; rfl
  | comment body => exact tree_leaf hb _
  | tag source =>
    rw [take, added]
    cases roleOf source with
    | closes name => exact tree_close hb name
    | declares body => exact tree_leaf hb _
    | opens head => exact tree_openTag hb head

/-! ## Readiness is kept -/

theorem Ready.flush {b : Builder} (hb : b.Ready) (atEnd : Bool) : (b.flush atEnd).Ready := by
  obtain ⟨ns, hns⟩ := exists_flush b atEnd
  rw [hns]
  intro hclosed hrow
  rw [row_settled, List.append_eq_nil_iff] at hrow
  exact hb hclosed hrow.2

theorem row_closeThrough {name : Text} {frames : List Frame}
    (h : frames.any (fun f => Text.sameLetters f.head.name name) = true) (child : Option Node)
    (root : List Node) (boundary : Boundary) (pending : Text) :
    row ⟨(closeThrough name child root frames).1, (closeThrough name child root frames).2,
      boundary, pending⟩ ≠ [] := by
  induction frames generalizing child with
  | nil => contradiction
  | cons f fs ih =>
    by_cases hsame : Text.sameLetters f.head.name name = true
    · cases fs <;> simp [closeThrough, hsame, row]
    · simp only [closeThrough, hsame]
      exact ih (by simpa [hsame] using h) _

theorem Ready.leaf {b : Builder} (hb : b.Ready) (n : Node) : (b.leaf n).Ready := by
  rw [leaf_eq hb]
  exact ready_settled_concat _ _ _

theorem Ready.close {b : Builder} (hb : b.Ready) (name : Text) : (b.close name).Ready := by
  unfold Builder.close
  split
  · next hopen =>
    intro _
    exact row_closeThrough ((hasOpen_flush b false name).trans hopen) none _ _ _
  · exact hb

theorem Ready.openTag {b : Builder} (hb : b.Ready) (head : TagHead) : (b.openTag head).Ready := by
  unfold Builder.openTag
  split
  · exact hb.leaf _
  · exact ready_entered head

theorem Ready.take {b : Builder} (hb : b.Ready) (token : Token) : (b.take token).Ready := by
  cases token with
  | text content => exact hb
  | lone => exact hb
  | comment body => exact hb.leaf _
  | tag source =>
    rw [Builder.take]
    cases roleOf source with
    | closes name => exact hb.close name
    | declares body => exact hb.leaf _
    | opens head => exact hb.openTag head

theorem Ready.foldl_take {b : Builder} (hb : b.Ready) (tokens : List Token) :
    (tokens.foldl Builder.take b).Ready := by
  induction tokens generalizing b with
  | nil => exact hb
  | cons token tokens ih => exact ih (hb.take token)

/-! ## Builders that go on alike -/

/-- The names of the open elements, the innermost first. -/
def names (b : Builder) : List Text := b.frames.map fun f => f.head.name

/-- What has a say in what tokens do to a builder is the same of both. -/
structure Alike (b b' : Builder) : Prop where
  names : b.names = b'.names
  boundary : b.boundary = b'.boundary
  pending : b.pending = b'.pending

variable {b b' : Builder}

theorem hasOpen_eq (b : Builder) (name : Text) :
    b.hasOpen name = b.names.any fun n => Text.sameLetters n name := by
  rw [hasOpen, names, List.any_map]
  rfl

theorem length_frames_eq (b : Builder) : b.frames.length = b.names.length := by
  rw [names, List.length_map]

theorem names_flush (b : Builder) (atEnd : Bool) : (b.flush atEnd).names = b.names := by
  obtain ⟨ns, hns⟩ := exists_flush b atEnd
  rw [hns]
  rcases b with ⟨_ | ⟨f, fs⟩, root, _, pending⟩ <;> rfl

theorem pending_flush (b : Builder) (atEnd : Bool) : (b.flush atEnd).pending = [] := by
  obtain ⟨ns, hns⟩ := exists_flush b atEnd
  rw [hns]
  rfl

theorem names_leaf (b : Builder) (n : Node) : (b.leaf n).names = b.names := by
  rw [← names_flush b false, leaf]
  rcases b.flush false with ⟨_ | ⟨f, fs⟩, root, boundary, pending⟩ <;> rfl

theorem pending_leaf (b : Builder) (n : Node) : (b.leaf n).pending = [] := by
  rw [← pending_flush b false, leaf]
  rcases b.flush false with ⟨_ | ⟨f, fs⟩, root, boundary, pending⟩ <;> rfl

/-- Elements are closed by their names. -/
theorem names_closeThrough (name : Text) (frames : List Frame) (child : Option Node)
    (root : List Node) : ((closeThrough name child root frames).1.map fun f => f.head.name) =
      ((frames.map fun f => f.head.name).dropWhile fun n => !Text.sameLetters n name).tail := by
  induction frames generalizing child with
  | nil => rfl
  | cons f fs ih =>
    by_cases hsame : Text.sameLetters f.head.name name = true
    · cases fs <;> simp [closeThrough, hsame]
    · simp only [closeThrough, hsame, List.map_cons]
      rw [List.dropWhile_cons_of_pos (by simp [hsame])]
      exact ih _

theorem close_of_not_hasOpen {name : Text} (h : b.hasOpen name = false) : b.close name = b := by
  unfold close
  rw [← hasOpen, h, if_neg Bool.false_ne_true]

theorem names_close (b : Builder) (name : Text) : (b.close name).names =
    if b.hasOpen name then (b.names.dropWhile fun n => !Text.sameLetters n name).tail
    else b.names := by
  unfold close
  rw [← hasOpen]
  split
  · rw [← names_flush b false]
    exact names_closeThrough name _ none _
  · rfl

theorem Alike.hasOpen (h : b.Alike b') (name : Text) : b.hasOpen name = b'.hasOpen name := by
  rw [hasOpen_eq, hasOpen_eq, h.names]

theorem Alike.added (h : b.Alike b') (token : Token) : b.added token = b'.added token := by
  simp only [Builder.added, h.boundary, h.pending, h.hasOpen]

/-- A leaf leaves builders alike, whatever text was pending. -/
theorem alike_leaf (h : b.names = b'.names) (n n' : Node) : (b.leaf n).Alike (b'.leaf n') where
  names := by rw [names_leaf, names_leaf, h]
  boundary := rfl
  pending := by rw [pending_leaf, pending_leaf]

/-- A close tag leaves builders alike when it closes something, whatever text was pending. -/
theorem alike_close (h : b.names = b'.names) {name : Text} (hopen : b.hasOpen name = true) :
    (b.close name).Alike (b'.close name) := by
  have hopen' : b'.hasOpen name = true := by rw [hasOpen_eq, ← h, ← hasOpen_eq, hopen]
  refine ⟨by rw [names_close, names_close, h, hopen, hopen'], ?_, ?_⟩
  · unfold close
    rw [← hasOpen, ← hasOpen, if_pos hopen, if_pos hopen']
  · unfold close
    rw [← hasOpen, ← hasOpen, if_pos hopen, if_pos hopen']
    exact (pending_flush b false).trans (pending_flush b' false).symm

/-- Tags of one name and kind leave builders alike, whatever their attributes and whatever text was
pending. -/
theorem alike_openTag (h : b.names = b'.names) {head head' : TagHead}
    (hname : head.name = head'.name) (hvoid : head.void = head'.void) :
    (b.openTag head).Alike (b'.openTag head') := by
  unfold openTag
  rw [← hvoid]
  split
  · exact alike_leaf h _ _
  · rw [← names_flush b false, ← names_flush b' false] at h
    exact
      { names := List.cons_eq_cons.mpr ⟨hname, h⟩
        boundary := rfl
        pending := (pending_flush b false).trans (pending_flush b' false).symm }

theorem Alike.close (h : b.Alike b') (name : Text) : (b.close name).Alike (b'.close name) := by
  cases hopen : b.hasOpen name with
  | true => exact alike_close h.names hopen
  | false =>
    have hopen' := (h.hasOpen name).symm.trans hopen
    rw [close_of_not_hasOpen hopen, close_of_not_hasOpen hopen']
    exact h

theorem Alike.take (h : b.Alike b') (token : Token) : (b.take token).Alike (b'.take token) := by
  cases token with
  | text content =>
    exact ⟨h.names, h.boundary, congrArg (content.reverseAux ·) h.pending⟩
  | lone => exact ⟨h.names, h.boundary, congrArg ('<' :: ·) h.pending⟩
  | comment body => exact alike_leaf h.names _ _
  | tag source =>
    rw [Builder.take, Builder.take]
    cases roleOf source with
    | closes name => exact h.close name
    | declares body => exact alike_leaf h.names _ _
    | opens head => exact alike_openTag h.names rfl rfl

end Builder

end Node

end LiveMarkup
