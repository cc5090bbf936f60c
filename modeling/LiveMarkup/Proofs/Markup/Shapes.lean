import LiveMarkup.Proofs.Markup.Growth
import LiveMarkup.Proofs.Markup.Normal
import Mathlib.Data.List.Chain

/-!
# The shape of a tree

What every tree looks like that was read, at every level. The heads of its tags have names and
values that can be written without an entity (`TagHead.Shape`), a void tag holds nothing, and every
row of nodes keeps its texts apart and its blank texts short (`Node.RowShape`). That rows are built
(`Node.BuiltRow`) gives all of this but for the void tags; for these the builder keeps that no
element is open whose tag is void (`Builder.NoVoid`).
-/

namespace LiveMarkup

/-- The shape of the head of a tag: an element that never has children is void, names of attributes
are distinct words, and no value holds both kinds of quotes, so that each is written as it is. -/
structure TagHead.Shape (head : TagHead) : Prop where
  void_of_name : Node.isVoidName head.name = true → head.void = true
  keys_nodup : (Keyed.keys head.attributes).Nodup
  key_ne_nil : ∀ a ∈ head.attributes, a.1 ≠ []
  key_chars : ∀ a ∈ head.attributes, ∀ c ∈ a.1,
    Text.isSpace c = false ∧ c ∉ ['"', '\'', '=', '<', '>', '\x60']
  one_quote : ∀ a ∈ head.attributes, ¬('"' ∈ a.2 ∧ '\'' ∈ a.2)
  verbatim : ∀ a ∈ head.attributes,
    ∃ q, (q = '"' ∨ q = '\'') ∧ q ∉ a.2 ∧ Node.quotedValue a.2 = q :: (a.2 ++ [q])

theorem TagHead.WellFormed.shape {head : TagHead} (h : head.WellFormed) : head.Shape where
  void_of_name := h.void_of_name
  keys_nodup := h.keys_nodup
  key_ne_nil a ha := (h.attributes a ha).name_ne_nil
  key_chars a ha c hc := by
    have hword := (h.attributes a ha).name_word c hc
    simp only [AttributeToken.isWordChar, Bool.not_eq_true', Bool.or_eq_false_iff,
      decide_eq_false_iff_not] at hword
    simpa [and_assoc] using hword
  one_quote a ha hboth := (h.attributes a ha).oneQuote hboth.1 hboth.2
  verbatim a ha := Node.quotedValue_eq (h.attributes a ha).oneQuote

namespace Node

/-! ## The tags of a tree -/

mutual

/-- The tags of a node with what they hold, at every level. -/
def tags : Node → List (TagHead × List Node)
  | .tag head children => (head, children) :: tagsAll children
  | .text _ | .comment _ | .declaration _ => []

/-- The tags of a row of nodes. -/
def tagsAll : List Node → List (TagHead × List Node)
  | [] => []
  | n :: ns => tags n ++ tagsAll ns

end

theorem mem_tagsAll {p : TagHead × List Node} {ns : List Node} :
    p ∈ tagsAll ns ↔ ∃ n ∈ ns, p ∈ n.tags := by
  induction ns with
  | nil => simp [tagsAll]
  | cons n ns ih => simp [tagsAll, ih]

/-! ## Rows -/

/-- The shape of a row of nodes: no text is empty and no two are neighbours; blank text behind
another node is one space, and does not end the row of a document. -/
structure RowShape (root : Bool) (row : List Node) : Prop where
  text_ne_nil : ∀ content, .text content ∈ row → content ≠ []
  apart : row.IsChain fun m n => ¬(m.isText = true ∧ n.isText = true)
  blank : ∀ before content after, row = before ++ .text content :: after → before ≠ [] →
    content.all Text.isBlank = true → content = [' '] ∧ (root = true → after ≠ [])

/-- Text that stays what it is when it is built. -/
theorem content_of_textNodes {boundary : Boundary} {atEnd : Bool} {content : Text}
    (h : textNodes boundary atEnd content = [.text content]) : content ≠ [] ∧
      (boundary = .closed → content.all Text.isBlank = true →
        content = [' '] ∧ atEnd = false) := by
  unfold textNodes at h
  split at h
  · cases h
  · next hne =>
    refine ⟨hne, fun hboundary hblank => ?_⟩
    have hshrinks : (decide (boundary = .closed) && content.all Text.isBlank) = true := by
      rw [hboundary, hblank]
      rfl
    rw [if_pos hshrinks] at h
    split at h
    · cases h
    · next hend =>
      cases h
      exact ⟨rfl, Bool.eq_false_iff.mpr hend⟩

/-- A text in a row that was built stays what it is. -/
theorem BuiltRow.text {boundary : Boundary} {atEnd : Bool} {before : List Node} {content : Text}
    {after : List Node} (h : BuiltRow boundary atEnd (before ++ .text content :: after)) :
    textNodes (rowBoundary boundary before) (atEnd && after.isEmpty) content =
      [.text content] := by
  induction before generalizing boundary with
  | nil =>
    rw [List.nil_append, builtRow_cons] at h
    exact h.2.2.1 content rfl
  | cons n before ih =>
    rw [List.cons_append, builtRow_cons] at h
    have hrest := ih h.2.2.2
    have hclosed : rowBoundary .closed before = .closed := by
      unfold rowBoundary
      split <;> rfl
    rw [hclosed] at hrest
    rw [rowBoundary, if_neg (List.cons_ne_nil n before)]
    exact hrest

theorem BuiltRow.apart {boundary : Boundary} {atEnd : Bool} {row : List Node}
    (h : BuiltRow boundary atEnd row) :
    row.IsChain fun m n => ¬(m.isText = true ∧ n.isText = true) := by
  induction row generalizing boundary with
  | nil => exact .nil
  | cons n ns ih =>
    rw [builtRow_cons] at h
    rw [List.isChain_cons]
    refine ⟨?_, ih h.2.2.2⟩
    rintro m hm ⟨hn, hmtext⟩
    rw [h.2.1 hn m hm] at hmtext
    cases hmtext

theorem BuiltRow.shape {boundary : Boundary} {atEnd : Bool} {row : List Node}
    (h : BuiltRow boundary atEnd row) : RowShape atEnd row where
  text_ne_nil content hmem := by
    obtain ⟨before, after, rfl⟩ := List.append_of_mem hmem
    exact (content_of_textNodes h.text).1
  apart := h.apart
  blank before content after heq hbefore hblank := by
    subst heq
    have htext := h.text
    rw [rowBoundary, if_neg hbefore] at htext
    obtain ⟨hspace, hend⟩ := (content_of_textNodes htext).2 rfl hblank
    refine ⟨hspace, fun hroot hafter => ?_⟩
    rw [hroot, hafter] at hend
    cases hend

mutual

/-- Every tag of a node that was built has a head that can be written and a row that was built. -/
theorem Built.of_mem_tags {n : Node} (h : n.Built) {p : TagHead × List Node} (hp : p ∈ n.tags) :
    p.1.WellFormed ∧ BuiltRow .opened false p.2 := by
  match n with
  | .text _ | .comment _ | .declaration _ => cases hp
  | .tag head children =>
    have hchildren : BuiltRow .opened false children := ⟨h.wellFormed.2, h.settled.1, h.settled.2⟩
    rcases List.mem_cons.mp hp with rfl | hp
    · exact ⟨h.wellFormed.1, hchildren⟩
    · exact hchildren.of_mem_tagsAll hp

theorem BuiltRow.of_mem_tagsAll {boundary : Boundary} {atEnd : Bool} {row : List Node}
    (h : BuiltRow boundary atEnd row) {p : TagHead × List Node} (hp : p ∈ tagsAll row) :
    p.1.WellFormed ∧ BuiltRow .opened false p.2 := by
  match row with
  | [] => cases hp
  | n :: ns =>
    rw [builtRow_cons] at h
    rcases List.mem_append.mp hp with hp | hp
    · exact h.1.of_mem_tags hp
    · exact h.2.2.2.of_mem_tagsAll hp

end

/-! ## Void tags -/

/-- The void tags of the node hold nothing. -/
def VoidsEmpty (n : Node) : Prop := ∀ p ∈ n.tags, p.1.void = true → p.2 = []

theorem voidsEmpty_tag {head : TagHead} {children : List Node} :
    VoidsEmpty (.tag head children) ↔
      (head.void = true → children = []) ∧ ∀ n ∈ children, n.VoidsEmpty := by
  constructor
  · intro h
    refine ⟨h (head, children) List.mem_cons_self, fun n hn p hp => ?_⟩
    exact h p (List.mem_cons_of_mem _ (mem_tagsAll.mpr ⟨n, hn, hp⟩))
  · rintro ⟨hvoid, hchildren⟩ p hp
    rcases List.mem_cons.mp hp with rfl | hp
    · exact hvoid
    · obtain ⟨n, hn, hp⟩ := mem_tagsAll.mp hp
      exact hchildren n hn p hp

theorem voidsEmpty_of_tags_eq_nil {n : Node} (h : n.tags = []) : n.VoidsEmpty := by
  intro p hp
  rw [h] at hp
  cases hp

/-- Pending text makes texts. -/
theorem voidsEmpty_of_mem_textNodes {boundary : Boundary} {atEnd : Bool} {pending : Text} {n : Node}
    (hn : n ∈ textNodes boundary atEnd pending) : n.VoidsEmpty := by
  apply voidsEmpty_of_tags_eq_nil
  rcases textNodes_cases boundary atEnd pending with hnil | ⟨content, hcontent, -⟩
  · rw [hnil] at hn
    cases hn
  · rw [hcontent] at hn
    rw [List.mem_singleton.mp hn]
    rfl

/-- An open element whose tag is not void, with a row whose void tags hold nothing. -/
structure Frame.NoVoid (f : Frame) : Prop where
  head : f.head.void = false
  children : ∀ n ∈ f.children, n.VoidsEmpty

/-- Closing an element puts the node of the one closed before it into its row. -/
theorem Frame.NoVoid.node {f : Frame} (h : f.NoVoid) {child : Option Node}
    (hchild : ∀ n ∈ child, n.VoidsEmpty) :
    (Frame.node { f with children := child.toList ++ f.children }).VoidsEmpty := by
  refine voidsEmpty_tag.mpr ⟨fun hvoid => ?_, fun n hn => ?_⟩
  · rw [h.head] at hvoid
    cases hvoid
  · rw [List.mem_reverse, List.mem_append, Option.mem_toList] at hn
    exact hn.elim (hchild n) (h.children n)

namespace Builder

/-- No void tag of the builder holds anything: none of the open elements is void. -/
structure NoVoid (b : Builder) : Prop where
  frames : ∀ f ∈ b.frames, f.NoVoid
  root : ∀ n ∈ b.root, n.VoidsEmpty

variable {b : Builder}

theorem noVoid_empty : NoVoid {} where
  frames _ hf := nomatch hf
  root _ hn := nomatch hn

theorem NoVoid.settled (h : b.NoVoid) {ns : List Node} (hns : ∀ n ∈ ns, n.VoidsEmpty)
    (boundary : Boundary) : (b.settled boundary ns).NoVoid := by
  have hrow {row : List Node} (hrow : ∀ n ∈ row, n.VoidsEmpty) :
      ∀ n ∈ ns.reverse ++ row, n.VoidsEmpty := by
    intro n hn
    rw [List.mem_append, List.mem_reverse] at hn
    exact hn.elim (hns n) (hrow n)
  obtain ⟨hframes, hroot⟩ := h
  rcases b with ⟨_ | ⟨f, fs⟩, root, boundary', pending⟩
  · exact ⟨hframes, hrow hroot⟩
  · rw [List.forall_mem_cons] at hframes
    refine ⟨List.forall_mem_cons.mpr ⟨⟨hframes.1.head, ?_⟩, hframes.2⟩, hroot⟩
    exact hrow hframes.1.children

theorem NoVoid.flush (h : b.NoVoid) (hb : b.Ready) (atEnd : Bool) : (b.flush atEnd).NoVoid := by
  rw [flush_eq hb]
  exact h.settled (fun _ hn => voidsEmpty_of_mem_textNodes hn) _

theorem NoVoid.leaf (h : b.NoVoid) (hb : b.Ready) {n : Node} (hn : n.VoidsEmpty) :
    (b.leaf n).NoVoid := by
  rw [leaf_eq hb]
  refine h.settled (fun m hm => ?_) _
  rcases List.mem_append.mp hm with hm | hm
  · exact voidsEmpty_of_mem_textNodes hm
  · rw [List.mem_singleton.mp hm]
    exact hn

theorem NoVoid.openTag (h : b.NoVoid) (hb : b.Ready) (head : TagHead) :
    (b.openTag head).NoVoid := by
  unfold Builder.openTag
  cases hvoid : head.void with
  | true => exact h.leaf hb (voidsEmpty_tag.mpr ⟨fun _ => rfl, fun _ hn => nomatch hn⟩)
  | false =>
    have hflush := h.flush hb false
    exact ⟨List.forall_mem_cons.mpr ⟨⟨hvoid, fun _ hn => nomatch hn⟩, hflush.frames⟩, hflush.root⟩

theorem noVoid_closeThrough (name : Text) {root : List Node} (hroot : ∀ n ∈ root, n.VoidsEmpty)
    {frames : List Frame} (hframes : ∀ f ∈ frames, f.NoVoid) {child : Option Node}
    (hchild : ∀ n ∈ child, n.VoidsEmpty) (boundary : Boundary) (pending : Text) :
    NoVoid ⟨(closeThrough name child root frames).1, (closeThrough name child root frames).2,
      boundary, pending⟩ := by
  induction frames generalizing child with
  | nil =>
    refine ⟨fun _ hf => (nomatch hf), fun n hn => ?_⟩
    rw [closeThrough, List.mem_append, Option.mem_toList] at hn
    exact hn.elim (hchild n) (hroot n)
  | cons f fs ih =>
    rw [List.forall_mem_cons] at hframes
    obtain ⟨hf, hfs⟩ := hframes
    have hnode := hf.node hchild
    unfold closeThrough
    split
    · cases fs with
      | nil => exact ⟨hfs, List.forall_mem_cons.mpr ⟨hnode, hroot⟩⟩
      | cons g gs =>
        rw [List.forall_mem_cons] at hfs
        refine ⟨List.forall_mem_cons.mpr ⟨⟨hfs.1.head, ?_⟩, hfs.2⟩, hroot⟩
        exact List.forall_mem_cons.mpr ⟨hnode, hfs.1.children⟩
    · refine ih hfs fun n hn => ?_
      cases hn
      exact hnode

theorem NoVoid.close (h : b.NoVoid) (hb : b.Ready) (name : Text) : (b.close name).NoVoid := by
  unfold Builder.close
  split
  · have hflush := h.flush hb false
    refine noVoid_closeThrough name hflush.root hflush.frames ?_ _ _
    intro n hn
    cases hn
  · exact h

theorem NoVoid.take (h : b.NoVoid) (hb : b.Ready) (token : Token) : (b.take token).NoVoid := by
  cases token with
  | text | lone => exact ⟨h.frames, h.root⟩
  | comment body => exact h.leaf hb (voidsEmpty_of_tags_eq_nil rfl)
  | tag source =>
    rw [Builder.take]
    cases roleOf source with
    | closes name => exact h.close hb name
    | declares body => exact h.leaf hb (voidsEmpty_of_tags_eq_nil rfl)
    | opens head => exact h.openTag hb head

theorem NoVoid.foldl_take (h : b.NoVoid) (hb : b.Ready) (tokens : List Token) :
    (tokens.foldl Builder.take b).NoVoid ∧ (tokens.foldl Builder.take b).Ready := by
  induction tokens generalizing b with
  | nil => exact ⟨h, hb⟩
  | cons token tokens ih => exact ih (h.take hb token) (hb.take token)

theorem voidsEmpty_of_mem_closeAll {root : List Node} (hroot : ∀ n ∈ root, n.VoidsEmpty)
    {frames : List Frame} (hframes : ∀ f ∈ frames, f.NoVoid) {child : Option Node}
    (hchild : ∀ n ∈ child, n.VoidsEmpty) : ∀ n ∈ closeAll child root frames, n.VoidsEmpty := by
  induction frames generalizing child with
  | nil =>
    intro n hn
    rw [closeAll, List.mem_append, Option.mem_toList] at hn
    exact hn.elim (hchild n) (hroot n)
  | cons f fs ih =>
    rw [List.forall_mem_cons] at hframes
    refine ih hframes.2 fun n hn => ?_
    cases hn
    exact hframes.1.node hchild

end Builder

/-- No void tag of a document holds anything. -/
theorem voidsEmpty_of_mem_parse {t : Text} {n : Node} (hn : n ∈ parse t) : n.VoidsEmpty := by
  obtain ⟨hvoid, hready⟩ :=
    Builder.noVoid_empty.foldl_take (fun h => nomatch h) (documentTokens t)
  have hflush := hvoid.flush hready true
  refine Builder.voidsEmpty_of_mem_closeAll hflush.root hflush.frames ?_ n (List.mem_reverse.mp hn)
  intro n hn
  cases hn

/-! ## Documents -/

/-- The shape of every tree that is read: that of its outermost row, and for every tag at every
level that of its head and of the row it holds, which is empty when the tag is void. -/
theorem shape_parse (t : Text) : RowShape true (parse t) ∧
    ∀ p ∈ tagsAll (parse t), p.1.Shape ∧ (p.1.void = true → p.2 = []) ∧ RowShape false p.2 := by
  have hbuilt := builtRow_parse t
  refine ⟨hbuilt.shape, fun p hp => ?_⟩
  obtain ⟨hhead, hrow⟩ := hbuilt.of_mem_tagsAll hp
  obtain ⟨n, hn, hpn⟩ := mem_tagsAll.mp hp
  exact ⟨hhead.shape, voidsEmpty_of_mem_parse hn p hpn, hrow.shape⟩

end Node

end LiveMarkup
