import LiveMarkup.Proofs.Markup.Written

/-!
# Building written trees

What the tree builder makes of the tokens a tree was written with. `Node.settleAll` is the tree as
it is built: neighbouring texts are joined, blank text shrinks where the builder shrinks it, a void
tag has no children and the body of a script or style element is one text. `ofTokens_tokensAll`
says that the builder builds this tree, `parse_serialize_eq_settleAll` that this is what comes back
from the markup of a legible tree.
-/

namespace LiveMarkup

namespace Node

open Token

/-! ## The tree that is built -/

/-- The nodes that pending text becomes behind `boundary`. -/
def textNodes (boundary : Boundary) (atEnd : Bool) (pending : Text) : List Node :=
  if pending = [] then []
  else if boundary = .closed && pending.all Text.isBlank then
    if atEnd then [] else [.text [' ']]
  else [.text pending]

/-- The children of a script or style element with the given body. -/
def rawNodes (body : Text) : List Node := if body = [] then [] else [.text body]

mutual

/-- The node as it is built from its tokens. -/
def settle : Node → Node
  | .tag head children =>
    .tag head
      (if head.void then []
      else if head.isRaw then rawNodes (markupAll children)
      else settleAll .opened false [] children)
  | .text content => .text content
  | .comment body => .comment body
  | .declaration body => .declaration body

/-- The row as it is built from its tokens, with `pending` text before it. -/
def settleAll (boundary : Boundary) (atEnd : Bool) (pending : Text) : List Node → List Node
  | [] => textNodes boundary atEnd pending
  | .text content :: ns => settleAll boundary atEnd (pending ++ content) ns
  | n :: ns => textNodes boundary false pending ++ settle n :: settleAll .closed atEnd [] ns

end

theorem settleAll_cons {n : Node} (h : n.isText = false) (boundary : Boundary) (atEnd : Bool)
    (pending : Text) (ns : List Node) : settleAll boundary atEnd pending (n :: ns) =
      textNodes boundary false pending ++ settle n :: settleAll .closed atEnd [] ns := by
  cases n with
  | text => contradiction
  | _ =>
    rw [settleAll]
    simp

theorem isText_eq_true_iff {n : Node} : n.isText = true ↔ ∃ content, n = .text content := by
  cases n <;> simp [isText]

/-- A row whose texts stay what they are when it is built: none is empty, and blank text shrinks
no further. -/
def RowSettled (boundary : Boundary) (atEnd : Bool) : List Node → Prop
  | [] => True
  | n :: ns =>
    (∀ content, n = .text content →
      textNodes boundary (atEnd && ns.isEmpty) content = [.text content]) ∧
    RowSettled .closed atEnd ns

/-- A settled row is built node by node. -/
theorem settleAll_eq_map_settle {boundary : Boundary} {atEnd : Bool} {ns : List Node}
    (h : RowSettled boundary atEnd ns) (hwf : WellFormedAll ns) :
    settleAll boundary atEnd [] ns = ns.map settle := by
  induction ns generalizing boundary with
  | nil => rfl
  | cons n ns ih =>
    rw [RowSettled] at h
    rw [WellFormedAll] at hwf
    have hrest := ih h.2 hwf.2.2
    cases htext : n.isText with
    | false =>
      rw [settleAll_cons htext, hrest]
      rfl
    | true =>
      obtain ⟨content, rfl⟩ := isText_eq_true_iff.mp htext
      have hcontent := h.1 content rfl
      rw [settleAll, List.nil_append, List.map_cons, ← hrest, settle]
      cases ns with
      | nil =>
        rw [List.isEmpty_nil, Bool.and_true] at hcontent
        rw [settleAll, hcontent]
        rfl
      | cons m ns =>
        rw [List.isEmpty_cons, Bool.and_false] at hcontent
        have hm := hwf.2.1 rfl m rfl
        rw [settleAll_cons hm, settleAll_cons hm, hcontent]
        rfl

/-! ## Rows in the builder -/

namespace Builder

/-- Put a row behind the latest child of the innermost open element. -/
def appendAll (b : Builder) (ns : List Node) : Builder :=
  match b.frames with
  | [] => { b with root := ns.reverse ++ b.root }
  | f :: fs => { b with frames := { f with children := ns.reverse ++ f.children } :: fs }

/-- The row that the builder is filling, the latest node first. -/
def row (b : Builder) : List Node :=
  match b.frames with
  | [] => b.root
  | f :: _ => f.children

/-- A builder that has closed something has put a node into its row. -/
def Ready (b : Builder) : Prop := b.boundary = .closed → b.row ≠ []

variable {b : Builder}

@[simp] theorem row_appendAll (ns : List Node) : (b.appendAll ns).row = ns.reverse ++ b.row := by
  rcases b with ⟨_ | ⟨f, fs⟩, root, boundary, pending⟩ <;> rfl

/-- The builder with a row put behind the latest child, no pending text and the given boundary. -/
def settled (b : Builder) (boundary : Boundary) (ns : List Node) : Builder :=
  { b.appendAll ns with pending := [], boundary := boundary }

theorem settled_settled (boundary boundary' : Boundary) (ms ns : List Node) :
    (b.settled boundary ms).settled boundary' ns = b.settled boundary' (ms ++ ns) := by
  rcases b with ⟨_ | ⟨f, fs⟩, root, _, pending⟩ <;> simp [settled, appendAll]

@[simp] theorem row_settled (boundary : Boundary) (ns : List Node) :
    (b.settled boundary ns).row = ns.reverse ++ b.row :=
  row_appendAll ns

/-- The names of the open elements stay what they are. -/
theorem any_settled (boundary : Boundary) (ns : List Node) (p : TagHead → Bool) :
    (b.settled boundary ns).frames.any (fun f => p f.head) = b.frames.any fun f => p f.head := by
  rcases b with ⟨_ | ⟨f, fs⟩, root, _, pending⟩ <;> rfl

/-- The builder with more text pending. -/
def withText (b : Builder) (content : Text) : Builder :=
  { b with pending := content.reverse ++ b.pending }

theorem withText_withText (s t : Text) : (b.withText s).withText t = b.withText (s ++ t) := by
  simp [withText]

theorem settled_withText (content : Text) (boundary : Boundary) (ns : List Node) :
    (b.withText content).settled boundary ns = b.settled boundary ns := by
  rcases b with ⟨_ | ⟨f, fs⟩, root, _, pending⟩ <;> rfl

/-- Flushing puts the nodes that the pending text becomes into the row. -/
theorem flush_eq (hb : b.Ready) (atEnd : Bool) : b.flush atEnd =
    b.settled b.boundary (textNodes b.boundary atEnd b.pending.reverse) := by
  have hempty : b.boundary = .closed → (b.frames.isEmpty && b.root.isEmpty) = false := by
    intro hboundary
    have hrow := hb hboundary
    rcases b with ⟨_ | ⟨f, fs⟩, root, boundary, pending⟩
    · simpa [row] using hrow
    · rfl
  cases hpending : b.pending with
  | nil =>
    rcases b with ⟨_ | ⟨f, fs⟩, root, boundary, pending⟩ <;> cases hpending <;> rfl
  | cons c pending =>
    have hcontent : (c :: pending).reverse ≠ [] := by simp
    rw [flush, hpending, textNodes, if_neg hcontent]
    by_cases hblank :
        (decide (b.boundary = .closed) && (c :: pending).reverse.all Text.isBlank) = true
    · simp only [hblank, if_true]
      rw [Bool.and_eq_true, decide_eq_true_eq] at hblank
      rw [hempty hblank.1, Bool.or_false]
      rcases b with ⟨_ | ⟨f, fs⟩, root, boundary, _⟩ <;> cases atEnd <;> rfl
    · simp only [hblank]
      rcases b with ⟨_ | ⟨f, fs⟩, root, boundary, _⟩ <;> rfl

/-- Flushing does not touch the open elements but for the row of the innermost one. -/
theorem exists_flush (b : Builder) (atEnd : Bool) :
    ∃ ns, b.flush atEnd = b.settled b.boundary ns := by
  cases hpending : b.pending with
  | nil =>
    refine ⟨[], ?_⟩
    rcases b with ⟨_ | ⟨f, fs⟩, root, boundary, pending⟩ <;> cases hpending <;> rfl
  | cons c pending =>
    simp only [flush, hpending]
    split
    · split
      · refine ⟨[], ?_⟩
        rcases b with ⟨_ | ⟨f, fs⟩, root, boundary, _⟩ <;> rfl
      · refine ⟨[.text [' ']], ?_⟩
        rcases b with ⟨_ | ⟨f, fs⟩, root, boundary, _⟩ <;> rfl
    · refine ⟨[.text (c :: pending).reverse], ?_⟩
      rcases b with ⟨_ | ⟨f, fs⟩, root, boundary, _⟩ <;> rfl

/-- A node that has no children comes behind the pending text. -/
theorem leaf_eq (hb : b.Ready) (n : Node) : b.leaf n =
    b.settled .closed (textNodes b.boundary false b.pending.reverse ++ [n]) := by
  rw [leaf, flush_eq hb, ← settled_settled b.boundary]
  rcases b with ⟨_ | ⟨f, fs⟩, root, boundary, pending⟩ <;> rfl

theorem ready_settled_concat (boundary : Boundary) (ns : List Node) (n : Node) :
    (b.settled boundary (ns ++ [n])).Ready := by
  intro _
  simp

/-! ## One element -/

/-- The builder right behind a tag that opens an element. -/
def entered (b : Builder) (head : TagHead) : Builder :=
  { b.flush false with frames := ⟨head, []⟩ :: (b.flush false).frames, boundary := .opened }

theorem pending_entered (head : TagHead) : (b.entered head).pending = [] := by
  obtain ⟨ns, hns⟩ := exists_flush b false
  rw [entered, hns]
  rfl

theorem ready_entered (head : TagHead) : (b.entered head).Ready := by
  intro h
  cases h

/-- An element that is closed right behind its row becomes one node. -/
theorem close_of_flush {b' : Builder} {head : TagHead} {boundary : Boundary} {children : List Node}
    (h : b'.flush false = (b.entered head).settled boundary children) :
    b'.close head.name = b.leaf (.tag head children) := by
  have hopen : b'.frames.any (fun f => Text.sameLetters f.head.name head.name) = true := by
    obtain ⟨ns, hns⟩ := exists_flush b' false
    let named (h : TagHead) : Bool := Text.sameLetters h.name head.name
    rw [← any_settled b'.boundary ns named, ← hns, h, any_settled _ _ named]
    simp [entered, named, Text.sameLetters]
  obtain ⟨ns, hns⟩ := exists_flush b false
  have hpending : (b.flush false).pending = [] := by
    rw [hns]
    rfl
  rw [close, if_pos hopen, h, leaf, entered]
  generalize b.flush false = flushed at hpending
  rcases flushed with ⟨_ | ⟨f, fs⟩, root, boundary', pending⟩ <;> cases hpending <;>
    simp [settled, appendAll, append, closeThrough, Text.sameLetters, Frame.node]

/-! ## Tokens of trees -/

/-- However a text comes apart, all of it is pending at the end. -/
theorem foldl_take_ofText (b : Builder) (content : Text) :
    (ofText content).foldl take b = b.withText content := by
  fun_induction ofText content generalizing b with
  | case1 => rfl
  | case2 t ih =>
    have htake : b.take .lone = b.withText ['<'] := rfl
    rw [List.foldl_cons, htake, ih, withText_withText, List.cons_append, List.nil_append]
  | case3 c t hc ih =>
    have hsplit : c :: t = (c :: t.takeWhile (· ≠ '<')) ++ t.dropWhile (· ≠ '<') := by simp
    have htake : b.take (.text (c :: t.takeWhile (· ≠ '<'))) =
        b.withText (c :: t.takeWhile (· ≠ '<')) := by
      simp [take, withText]
    rw [List.foldl_cons, htake, ih, withText_withText, ← hsplit]

theorem foldl_take_ofRawText (b : Builder) (body : Text) :
    (ofRawText body).foldl take b = b.withText body := by
  cases body with
  | nil => rfl
  | cons c body => simp [ofRawText, take, withText]

theorem take_openTag {head : TagHead} (h : head.WellFormed) (hvoid : head.void = false) :
    b.take (.tag (Node.openTag head)) = b.entered head := by
  simp only [take, roleOf_openTag h, openTag, hvoid, Bool.false_eq_true, if_false, entered]

theorem take_closeTag {head : TagHead} (h : head.WellFormed) :
    b.take (.tag (closeTag head.name)) = b.close head.name := by
  simp only [take, roleOf_closeTag h.name_chars]

theorem take_declaration {body : Text} (h : IsDeclaration body) :
    b.take (.tag ('<' :: (body ++ ['>']))) = b.leaf (.declaration body) := by
  have hrole : roleOf ('<' :: (body ++ ['>'])) = .declares body := by
    cases body with
    | nil => exact absurd h.1 (by simp)
    | cons c body =>
      cases Option.some.inj h.1
      have hinside : ('!' :: (body ++ ['>'])).dropLast = '!' :: body := by
        rw [← List.cons_append, List.dropLast_concat]
      exact congrArg TagRole.declares hinside
  simp only [take, hrole]

mutual

/-- The tokens of a node other than a text make one child of it. -/
theorem foldl_take_tokens {n : Node} (h : n.WellFormed) (htext : n.isText = false) (b : Builder) :
    (tokens n).foldl take b = b.leaf (settle n) := by
  match n with
  | .comment body => rw [tokens, settle, List.foldl_cons, take, List.foldl_nil]
  | .declaration body =>
    rw [WellFormed] at h
    rw [tokens, settle, List.foldl_cons, take_declaration h, List.foldl_nil]
  | .tag head children =>
    rw [WellFormed] at h
    obtain ⟨hhead, hchildren⟩ := h
    rw [tokens, settle, List.foldl_cons]
    cases hvoid : head.void with
    | true => simp only [take, roleOf_openTag hhead, openTag, hvoid, if_true, List.foldl_nil]
    | false =>
      rw [take_openTag hhead hvoid]
      simp only [Bool.false_eq_true, if_false, List.foldl_append, List.foldl_cons, List.foldl_nil,
        take_closeTag hhead]
      -- the children start in a frame of their own, as a document does
      have hready : (b.entered head).Ready := ready_entered head
      cases hraw : head.isRaw with
      | true =>
        have hflush := flush_eq (b := (b.entered head).withText (markupAll children)) hready false
        rw [settled_withText] at hflush
        rw [if_pos rfl, if_pos rfl, foldl_take_ofRawText, close_of_flush hflush]
        simp only [withText, pending_entered, List.append_nil, List.reverse_reverse]
        rfl
      | false =>
        obtain ⟨boundary, hflush⟩ := flush_foldl_take_tokensAll hchildren hready false
        rw [if_neg Bool.false_ne_true, if_neg Bool.false_ne_true, close_of_flush hflush,
          pending_entered]
        rfl

/-- The tokens of a row make its nodes, as they are built. -/
theorem flush_foldl_take_tokensAll {ns : List Node} (h : WellFormedAll ns) {b : Builder}
    (hb : b.Ready) (atEnd : Bool) :
    ∃ boundary, ((tokensAll ns).foldl take b).flush atEnd =
      b.settled boundary (settleAll b.boundary atEnd b.pending.reverse ns) := by
  match ns with
  | [] => exact ⟨b.boundary, flush_eq hb atEnd⟩
  | n :: ns =>
    rw [WellFormedAll] at h
    rw [tokensAll, List.foldl_append]
    cases htext : n.isText with
    | true =>
      cases n with
      | text content =>
        obtain ⟨boundary, hflush⟩ :=
          flush_foldl_take_tokensAll h.2.2 (b := b.withText content) hb atEnd
        refine ⟨boundary, ?_⟩
        rw [tokens, foldl_take_ofText, hflush, settled_withText, settleAll]
        simp [withText]
      | _ => contradiction
    | false =>
      rw [foldl_take_tokens h.1 htext, leaf_eq hb]
      obtain ⟨boundary, hflush⟩ := flush_foldl_take_tokensAll h.2.2
        (ready_settled_concat (b := b) .closed (textNodes b.boundary false b.pending.reverse)
          (settle n)) atEnd
      refine ⟨boundary, ?_⟩
      rw [hflush, settled_settled, settleAll_cons htext]
      simp [settled]

end

end Builder

/-! ## Trees -/

/-- What the builder builds from the tokens of a tree. -/
theorem ofTokens_tokensAll {ns : List Node} (h : WellFormedAll ns) :
    ofTokens (tokensAll ns) = settleAll .start true [] ns := by
  obtain ⟨boundary, hflush⟩ := Builder.flush_foldl_take_tokensAll h (b := {})
    (fun hboundary => nomatch hboundary) true
  rw [ofTokens, Builder.finish, hflush]
  simp [Builder.settled, Builder.appendAll, Builder.closeAll]

/-- What comes back from the markup of a legible tree. -/
theorem parse_markupAll {ns : List Node} (h : WellFormedAll ns) (hlegible : LegibleAll [] ns) :
    parse (markupAll ns) = settleAll .start true [] ns := by
  have htokens : documentTokens (markupAll ns ++ []) = tokensAll ns ++ documentTokens [] :=
    documentTokens_markupAll h atBracket_nil hlegible
  rw [List.append_nil, documentTokens_nil, List.append_nil] at htokens
  rw [parse, htokens, ofTokens_tokensAll h]

/-! ## The writer with a stack -/

/-- What pending work is written as. -/
def Pending.markup : Pending → Text
  | .node n => n.markup
  | .close name => closeTag name

theorem flatMap_markup_ofNodes (nodes : List Node) :
    (Pending.ofNodes nodes).flatMap Pending.markup = markupAll nodes := by
  induction nodes with
  | nil => rfl
  | cons n nodes ih =>
    simp only [Pending.ofNodes, List.map_cons, List.flatMap_cons, markupAll] at ih ⊢
    rw [ih]
    rfl

/-- The loop writes what the work on its stack is written as, behind what has been written. -/
theorem serializeLoop_eq (out : Text) (stack : List Pending) :
    serializeLoop out stack = out.reverse ++ stack.flatMap Pending.markup := by
  fun_induction serializeLoop out stack with
  | case1 out => simp
  | case2 out name rest ih =>
    rw [ih]
    simp [Pending.markup]
  | case3 out content rest ih =>
    rw [ih]
    simp [Pending.markup, markup]
  | case4 out body rest ih =>
    rw [ih]
    simp [Pending.markup, markup]
  | case5 out body rest ih =>
    rw [ih]
    simp [Pending.markup, markup]
  | case6 out head children rest written hvoid ih =>
    rw [ih]
    simp [written, Pending.markup, markup, hvoid]
  | case7 out head children rest written hvoid ih =>
    rw [ih]
    simp [written, Pending.markup, markup, hvoid, flatMap_markup_ofNodes]

theorem serialize_eq_markupAll (nodes : List Node) : serialize nodes = markupAll nodes := by
  rw [serialize, serializeLoop_eq, flatMap_markup_ofNodes]
  rfl

end Node

end LiveMarkup
