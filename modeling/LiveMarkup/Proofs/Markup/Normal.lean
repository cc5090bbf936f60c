import LiveMarkup.Proofs.Markup.Building
import LiveMarkup.Proofs.Markup.Reading

/-!
# Normal markup

Markup that was read and written once. The builder keeps `Builder.Sound`: the rows of its open
elements are well formed and settled, so that `builtRow_parse` holds of every tree that is read.
Such a tree is built again as it is, up to what its markup does not show, and reading and writing
its markup changes nothing once the tree is legible. Legible are just the trees whose markup comes
apart into the tokens it was written with.
-/

namespace LiveMarkup

namespace Node

open Token

/-! ## Trees that were built -/

mutual

/-- Under every tag stands a settled row. -/
def Settled : Node → Prop
  | .tag _ children => RowSettled .opened false children ∧ SettledAll children
  | .text _ | .comment _ | .declaration _ => True

/-- Under every tag of the row stands a settled row. -/
def SettledAll : List Node → Prop
  | [] => True
  | n :: ns => Settled n ∧ SettledAll ns

end

/-- A row as the builder leaves it behind `boundary`. -/
structure BuiltRow (boundary : Boundary) (atEnd : Bool) (row : List Node) : Prop where
  wellFormed : WellFormedAll row
  settled : RowSettled boundary atEnd row
  children : SettledAll row

/-- A node as the builder leaves it. -/
structure Built (n : Node) : Prop where
  wellFormed : n.WellFormed
  settled : n.Settled

/-- The boundary behind a row that starts behind `boundary` and does not end with a text. -/
def rowBoundary (boundary : Boundary) (row : List Node) : Boundary :=
  if row = [] then boundary else .closed

theorem builtRow_nil (boundary : Boundary) (atEnd : Bool) : BuiltRow boundary atEnd [] :=
  ⟨trivial, trivial, trivial⟩

theorem builtRow_cons {boundary : Boundary} {atEnd : Bool} {n : Node} {ns : List Node} :
    BuiltRow boundary atEnd (n :: ns) ↔ Built n ∧
      (n.isText = true → ∀ m ∈ ns.head?, m.isText = false) ∧
      (∀ content, n = .text content →
        textNodes boundary (atEnd && ns.isEmpty) content = [.text content]) ∧
      BuiltRow .closed atEnd ns := by
  constructor
  · rintro ⟨⟨hn, hnext, hwf⟩, ⟨htext, hsettled⟩, ⟨hchild, hchildren⟩⟩
    exact ⟨⟨hn, hchild⟩, hnext, htext, ⟨hwf, hsettled, hchildren⟩⟩
  · rintro ⟨⟨hn, hchild⟩, hnext, htext, ⟨hwf, hsettled, hchildren⟩⟩
    exact ⟨⟨hn, hnext, hwf⟩, ⟨htext, hsettled⟩, ⟨hchild, hchildren⟩⟩

/-- A row grows by a node at its end. -/
theorem BuiltRow.concat {boundary : Boundary} {ns : List Node} (h : BuiltRow boundary false ns)
    {n : Node} (hn : Built n) (hnext : n.isText = true → ∀ m ∈ ns.getLast?, m.isText = false)
    {atEnd : Bool} (htext : ∀ content, n = .text content →
      textNodes (rowBoundary boundary ns) atEnd content = [.text content]) :
    BuiltRow boundary atEnd (ns ++ [n]) := by
  -- the boundary moves along the row, and `rowBoundary` is where it ends
  induction ns generalizing boundary with
  | nil =>
    refine builtRow_cons.mpr ⟨hn, ?_, ?_, builtRow_nil _ _⟩
    · intro _ m hm
      cases hm
    · intro content heq
      simpa [rowBoundary] using htext content heq
  | cons m ns ih =>
    rw [builtRow_cons] at h
    obtain ⟨hm, hmnext, hmtext, hns⟩ := h
    rw [List.cons_append]
    refine builtRow_cons.mpr ⟨hm, ?_, ?_, ih hns ?_ ?_⟩
    · intro hmt k hk
      cases ns with
      | nil =>
        cases hk
        cases hnt : n.isText with
        | false => rfl
        | true => exact absurd hmt (by simp [hnext hnt m rfl])
      | cons k' ns => exact hmnext hmt k hk
    · intro content heq
      have hempty : (ns ++ [n]).isEmpty = false := by simp
      rw [hempty, Bool.and_false]
      simpa using hmtext content heq
    · intro hnt k hk
      refine hnext hnt k ?_
      cases ns with
      | nil => cases hk
      | cons k' ns => simpa [List.getLast?_cons_cons] using hk
    · intro content heq
      have := htext content heq
      cases ns <;> simpa [rowBoundary] using this

/-- A row that does not end with a text may end a document. -/
theorem BuiltRow.atEnd {boundary : Boundary} {ns : List Node} (h : BuiltRow boundary false ns)
    (hlast : ∀ m ∈ ns.getLast?, m.isText = false) : BuiltRow boundary true ns := by
  induction ns generalizing boundary with
  | nil => exact builtRow_nil _ _
  | cons n ns ih =>
    rw [builtRow_cons] at h ⊢
    obtain ⟨hn, hnext, htext, hns⟩ := h
    refine ⟨hn, hnext, ?_, ih hns ?_⟩
    · rintro content rfl
      cases ns with
      | nil => exact absurd (hlast _ rfl) (by simp [isText])
      | cons m ns => simpa using htext content rfl
    · intro m hm
      refine hlast m ?_
      cases ns with
      | nil => cases hm
      | cons k ns => simpa [List.getLast?_cons_cons] using hm

/-- Pending text becomes nothing or one text, which would become itself again. -/
theorem textNodes_cases (boundary : Boundary) (atEnd : Bool) (pending : Text) :
    textNodes boundary atEnd pending = [] ∨
      ∃ content, textNodes boundary atEnd pending = [.text content] ∧
        ∀ atEnd' : Bool, (atEnd' = true → atEnd = true) →
          textNodes boundary atEnd' content = [.text content] := by
  by_cases hempty : pending = []
  · exact .inl (if_pos hempty)
  rw [textNodes, if_neg hempty]
  by_cases hblank : (decide (boundary = .closed) && pending.all Text.isBlank) = true
  · rw [if_pos hblank]
    cases atEnd with
    | true => exact .inl rfl
    | false =>
      refine .inr ⟨[' '], rfl, fun atEnd' hend => ?_⟩
      have hfalse : atEnd' = false := by simpa using hend
      rw [Bool.and_eq_true, decide_eq_true_eq] at hblank
      rw [hfalse, hblank.1]
      rfl
  · refine .inr ⟨pending, if_neg hblank, fun atEnd' _ => ?_⟩
    rw [textNodes, if_neg hempty, if_neg hblank]

/-! ## The builder -/

theorem built_tag {head : TagHead} (h : head.WellFormed) {children : List Node}
    (hchildren : BuiltRow .opened false children) : Built (.tag head children) :=
  ⟨⟨h, hchildren.wellFormed⟩, hchildren.settled, hchildren.children⟩

/-- An open element whose row is built so far. -/
structure Frame.Built (f : Frame) : Prop where
  head : f.head.WellFormed
  children : BuiltRow .opened false f.children.reverse

/-- Closing an element puts the node of the one closed before it at the end of its row. -/
theorem Frame.Built.node {f : Frame} (h : f.Built) {child : Option Node}
    (hchild : ∀ n ∈ child, n.isText = false ∧ n.Built) :
    (Frame.node { f with children := child.toList ++ f.children }).isText = false ∧
      Node.Built (Frame.node { f with children := child.toList ++ f.children }) := by
  refine ⟨rfl, built_tag h.head ?_⟩
  cases child with
  | none => exact h.children
  | some n =>
    obtain ⟨htext, hn⟩ := hchild n rfl
    simp only [Option.toList_some, List.cons_append, List.nil_append, List.reverse_cons]
    refine h.children.concat hn (fun h => absurd h (by simp [htext])) ?_
    rintro content rfl
    contradiction

namespace Builder

/-- What stands before the first node of the row that is being filled. -/
def start (b : Builder) : Boundary := if b.frames.isEmpty then .start else .opened

/-- All rows of the builder are built so far. -/
structure RowsBuilt (b : Builder) : Prop where
  frames : ∀ f ∈ b.frames, f.Built
  root : BuiltRow .start false b.root.reverse

/-- The builder between two tokens: the row that is being filled does not end with a text, and the
boundary tells whether there is something in it. -/
structure Sound (b : Builder) : Prop where
  rows : b.RowsBuilt
  boundary : b.boundary = rowBoundary b.start b.row.reverse
  last : ∀ n ∈ b.row.head?, n.isText = false

variable {b : Builder}

theorem sound_empty : Sound {} where
  rows := ⟨fun _ hf => (nomatch hf), builtRow_nil _ _⟩
  boundary := rfl
  last _ hn := nomatch hn

theorem Sound.ready (h : b.Sound) : b.Ready := by
  intro hboundary hrow
  have hstart := h.boundary
  rw [hrow, hboundary] at hstart
  unfold start at hstart
  cases hempty : b.frames.isEmpty <;> simp [rowBoundary, hempty] at hstart

theorem Sound.withText (h : b.Sound) (content : Text) : (b.withText content).Sound :=
  ⟨⟨h.rows.frames, h.rows.root⟩, h.boundary, h.last⟩

/-- The row that is being filled is built so far. -/
theorem RowsBuilt.row (h : b.RowsBuilt) : BuiltRow b.start false b.row.reverse := by
  rcases b with ⟨_ | ⟨f, fs⟩, root, boundary, pending⟩
  · exact h.root
  · exact (h.frames f List.mem_cons_self).children

/-- The rows stay built when the one that is being filled grows to one that is built. -/
theorem RowsBuilt.settled (h : b.RowsBuilt) {ns : List Node}
    (hrow : BuiltRow b.start false (b.row.reverse ++ ns)) (boundary : Boundary) :
    (b.settled boundary ns).RowsBuilt := by
  rcases b with ⟨_ | ⟨f, fs⟩, root, boundary', pending⟩
  · refine ⟨fun _ hf => (nomatch hf), ?_⟩
    have hroot : BuiltRow .start false (root.reverse ++ ns) := hrow
    simpa [Builder.settled, appendAll] using hroot
  · refine ⟨fun g hg => ?_, h.root⟩
    rcases List.mem_cons.mp hg with rfl | hg
    · refine ⟨(h.frames f List.mem_cons_self).head, ?_⟩
      have hchildren : BuiltRow .opened false (f.children.reverse ++ ns) := hrow
      simpa using hchildren
    · exact h.frames g (List.mem_cons_of_mem f hg)

/-- The row that is being filled with what pending text becomes at its end. -/
theorem Sound.row_textNodes (h : b.Sound) (atEnd : Bool) (pending : Text) :
    BuiltRow b.start false (b.row.reverse ++ textNodes b.boundary atEnd pending) ∧
      BuiltRow b.start atEnd (b.row.reverse ++ textNodes b.boundary atEnd pending) := by
  have hlast : ∀ m ∈ b.row.reverse.getLast?, m.isText = false := by
    rw [List.getLast?_reverse]
    exact h.last
  rcases textNodes_cases b.boundary atEnd pending with hnil | ⟨content, hcontent, hstays⟩
  · rw [hnil, List.append_nil]
    refine ⟨h.rows.row, ?_⟩
    cases atEnd with
    | false => exact h.rows.row
    | true => exact h.rows.row.atEnd hlast
  · rw [hcontent]
    rw [h.boundary] at hstays
    have hbuilt : Built (.text content) := ⟨trivial, trivial⟩
    constructor
    · refine h.rows.row.concat hbuilt (fun _ => hlast) ?_
      intro _ heq
      cases heq
      exact hstays false fun h => nomatch h
    · refine h.rows.row.concat hbuilt (fun _ => hlast) ?_
      intro _ heq
      cases heq
      exact hstays atEnd id

theorem Sound.flush (h : b.Sound) (atEnd : Bool) : (b.flush atEnd).RowsBuilt := by
  rw [flush_eq h.ready]
  exact h.rows.settled (h.row_textNodes atEnd _).1 _

/-- A node other than a text leaves the builder between two tokens. -/
theorem RowsBuilt.sound_settled (h : b.RowsBuilt) {n : Node} (htext : n.isText = false)
    (hn : Built n) : (b.settled .closed [n]).Sound where
  rows := by
    refine h.settled (h.row.concat hn (fun h => absurd h (by simp [htext])) ?_) _
    rintro content rfl
    contradiction
  boundary := by
    rw [row_settled, rowBoundary, if_neg (by simp)]
    rfl
  last := by simpa using htext

theorem Sound.leaf (h : b.Sound) {n : Node} (htext : n.isText = false) (hn : Built n) :
    (b.leaf n).Sound := by
  rw [leaf_eq h.ready, ← settled_settled b.boundary, ← flush_eq h.ready]
  exact (h.flush false).sound_settled htext hn

theorem Sound.entered (h : b.Sound) {head : TagHead} (hhead : head.WellFormed) :
    (b.entered head).Sound where
  rows := by
    refine ⟨fun f hf => ?_, (h.flush false).root⟩
    rcases List.mem_cons.mp hf with rfl | hf
    · exact ⟨hhead, builtRow_nil _ _⟩
    · exact (h.flush false).frames f hf
  boundary := rfl
  last _ hn := nomatch hn

/-- Closing up to an open element of the name leaves the builder between two tokens. -/
theorem sound_closeThrough {name : Text} {root : List Node}
    (hroot : BuiltRow .start false root.reverse)
    {frames : List Frame} (hframes : ∀ f ∈ frames, f.Built) {child : Option Node}
    (hchild : ∀ n ∈ child, n.isText = false ∧ Built n)
    (hname : frames.any (fun f => Text.sameLetters f.head.name name) = true) :
    Sound { frames := (closeThrough name child root frames).1,
            root := (closeThrough name child root frames).2, boundary := .closed } := by
  induction frames generalizing child with
  | nil => contradiction
  | cons f fs ih =>
    rw [List.forall_mem_cons] at hframes
    obtain ⟨hf, hfs⟩ := hframes
    have hnode := hf.node hchild
    by_cases hsame : Text.sameLetters f.head.name name = true
    · have hrows : RowsBuilt { frames := fs, root := root } := ⟨hfs, hroot⟩
      have hsound := hrows.sound_settled hnode.1 hnode.2
      cases fs <;> simp only [closeThrough, hsame, if_true] <;> exact hsound
    · simp only [closeThrough, hsame]
      refine ih hfs ?_ (by simpa [hsame] using hname)
      intro n hn
      cases hn
      exact hnode

theorem Sound.close (h : b.Sound) (name : Text) : (b.close name).Sound := by
  unfold Builder.close
  split
  · next hname =>
    have hrows := h.flush false
    obtain ⟨ns, hns⟩ := exists_flush b false
    rw [hns] at hrows ⊢
    rw [← any_settled b.boundary ns fun h => Text.sameLetters h.name name] at hname
    exact sound_closeThrough hrows.root hrows.frames (fun _ hn => nomatch hn) hname
  · exact h

theorem Sound.take (h : b.Sound) {token : Token} (htoken : token.Read) : (b.take token).Sound := by
  cases token with
  | text content =>
    have htake : b.take (.text content) = b.withText content := by
      simp [Builder.take, Builder.withText]
    rw [htake]
    exact h.withText content
  | lone => exact h.withText ['<']
  | comment body => exact h.leaf rfl ⟨htoken, trivial⟩
  | tag source =>
    rw [Builder.take]
    split
    · exact h.close _
    · next body hrole => exact h.leaf rfl ⟨isDeclaration_of_read htoken hrole, trivial⟩
    · next head hrole =>
      have hhead := wellFormed_of_read htoken hrole
      unfold Builder.openTag
      split
      · exact h.leaf rfl (built_tag hhead (builtRow_nil _ _))
      · exact h.entered hhead

theorem Sound.foldl_take (h : b.Sound) {tokens : List Token}
    (htokens : ∀ token ∈ tokens, token.Read) :
    (tokens.foldl Builder.take b).Sound := by
  induction tokens generalizing b with
  | nil => exact h
  | cons token tokens ih =>
    rw [List.forall_mem_cons] at htokens
    exact ih (h.take htokens.1) htokens.2

/-- Closing what is left open makes a row that may end a document. -/
theorem builtRow_closeAll {root : List Node} (hroot : BuiltRow .start false root.reverse)
    {frames : List Frame} (hframes : ∀ f ∈ frames, f.Built) {child : Option Node}
    (hchild : ∀ n ∈ child, n.isText = false ∧ Built n)
    (hend : frames = [] → child = none → BuiltRow .start true root.reverse) :
    BuiltRow .start true (closeAll child root frames).reverse := by
  induction frames generalizing child with
  | nil =>
    cases child with
    | none => exact hend rfl rfl
    | some n =>
      obtain ⟨htext, hn⟩ := hchild n rfl
      rw [closeAll, Option.toList_some, List.cons_append, List.nil_append, List.reverse_cons]
      refine hroot.concat hn (fun h => absurd h (by simp [htext])) ?_
      rintro content rfl
      contradiction
  | cons f fs ih =>
    rw [List.forall_mem_cons] at hframes
    refine ih hframes.2 ?_ ?_
    · intro n hn
      cases hn
      exact hframes.1.node hchild
    · intro _ h
      cases h

theorem Sound.finish (h : b.Sound) : BuiltRow .start true b.finish := by
  have hrows := h.flush true
  have hrow := (h.row_textNodes true b.pending.reverse).2
  refine builtRow_closeAll hrows.root hrows.frames ?_ ?_
  · intro _ hn
    cases hn
  intro hframes _
  rw [flush_eq h.ready] at hframes ⊢
  rcases b with ⟨_ | ⟨f, fs⟩, root, boundary, pending⟩
  · have hroot : BuiltRow .start true
        (root.reverse ++ textNodes boundary true pending.reverse) := hrow
    simpa [Builder.settled, appendAll] using hroot
  · cases hframes

end Builder

/-- Every tree that is read is as the builder leaves it. -/
theorem builtRow_parse (t : Text) : BuiltRow .start true (parse t) :=
  (Builder.sound_empty.foldl_take (read_of_mem_documentTokens t)).finish

/-! ## Reading and writing again -/

theorem markupAll_rawNodes (body : Text) : markupAll (rawNodes body) = body := by
  unfold rawNodes
  split
  · next h => rw [h, markupAll]
  · simp [markupAll, markup]

mutual

/-- Building a node again does not change its markup. -/
theorem markup_settle {n : Node} (h : Built n) : markup (settle n) = markup n := by
  match n with
  | .text _ | .comment _ | .declaration _ => rw [settle]
  | .tag head children =>
    have hchildren : BuiltRow .opened false children :=
      ⟨h.wellFormed.2, h.settled.1, h.settled.2⟩
    rw [settle, markup, markup]
    cases head.void with
    | true => rfl
    | false =>
      cases head.isRaw with
      | true => simp only [Bool.false_eq_true, if_false, if_true, markupAll_rawNodes]
      | false =>
        simp only [Bool.false_eq_true, if_false]
        rw [settleAll_eq_map_settle hchildren.settled hchildren.wellFormed,
          markupAll_map_settle hchildren]

theorem markupAll_map_settle {boundary : Boundary} {atEnd : Bool} {ns : List Node}
    (h : BuiltRow boundary atEnd ns) : markupAll (ns.map settle) = markupAll ns := by
  match ns with
  | [] => rfl
  | n :: ns =>
    rw [builtRow_cons] at h
    rw [List.map_cons, markupAll, markupAll, markup_settle h.1, markupAll_map_settle h.2.2.2]

end

/-- The markup of a tree that was read comes apart into the tokens it was written with exactly when
the tree is legible, and then reading and writing it once more changes nothing. -/
theorem serialize_parse_normal (t : Text) :
    (documentTokens (serialize (parse t)) = tokensAll (parse t) ↔ LegibleAll [] (parse t)) ∧
      (LegibleAll [] (parse t) →
        serialize (parse (serialize (parse t))) = serialize (parse t)) := by
  have hbuilt := builtRow_parse t
  generalize parse t = ns at hbuilt
  simp only [serialize_eq_markupAll]
  refine ⟨⟨fun htokens => ?_, fun hlegible => ?_⟩, fun hlegible => ?_⟩
  · have htokens : documentTokens (markupAll ns ++ []) = tokensAll ns ++ [] := by
      simpa using htokens
    exact (legibleAll_of_documentTokens hbuilt.wellFormed atBracket_nil htokens).1
  · have htokens : documentTokens (markupAll ns ++ []) = tokensAll ns ++ documentTokens [] :=
      documentTokens_markupAll hbuilt.wellFormed atBracket_nil hlegible
    simpa [documentTokens_nil] using htokens
  · rw [parse_markupAll hbuilt.wellFormed hlegible,
      settleAll_eq_map_settle hbuilt.settled hbuilt.wellFormed, markupAll_map_settle hbuilt]

/-- Unclosed tags, blank text and a close tag without an element are normal after one round. -/
theorem serialize_parse_normal_unclosed :
    serialize (parse (serialize (parse " <p>a</i> <br> b".toList))) =
      serialize (parse " <p>a</i> <br> b".toList) :=
  (serialize_parse_normal _).2 ((serialize_parse_normal _).1.mp (by decide +kernel))

/-- A quote in the name of a tag is open where the written tag should end, so that the second round
reads another tag. -/
theorem not_serialize_parse_normal : ¬∀ t : Text,
    serialize (parse (serialize (parse t))) = serialize (parse t) :=
  fun h => absurd (h "<a\"b c\">".toList) (by decide +kernel)

end Node

end LiveMarkup
