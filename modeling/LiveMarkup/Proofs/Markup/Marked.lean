import LiveMarkup.Proofs.Markup.Growth
import Mathlib.Algebra.GroupWithZero.Nat

/-!
# A word in a tree

Where a word ends up that stands somewhere in a piece of markup: `Marked` is a tree with a mark in
one of its texts, comments or attribute values, and `Place` tells which of the three it is. When
one token of a row varies with a word, so does the tree in just one place (`exists_marked`), and the
place is the same for all words. That a tree depends on a word in one way excludes that it does in
another (`Marked.key?_eq_of_fill_eq`).
-/

namespace LiveMarkup

/-- A word of ASCII letters. -/
structure Word where
  text : Text
  ne_nil : text ≠ []
  letters : ∀ c ∈ text, c.isAlpha = true

namespace Word

theorem isAlphanum (w : Word) {c : Char} (h : c ∈ w.text) : Text.isAlphanum c = true := by
  rw [Text.isAlphanum, w.letters c h]
  rfl

/-- A text with a word in it is not blank. -/
theorem not_blank (w : Word) (left right : Text) :
    (left ++ (w.text ++ right)).all Text.isBlank = false := by
  obtain ⟨c, hc⟩ := List.exists_mem_of_ne_nil _ w.ne_nil
  rw [List.all_eq_false]
  refine ⟨c, by simp [hc], ?_⟩
  rw [Text.isBlank_of_isAlphanum (w.isAlphanum hc)]
  exact Bool.false_ne_true

/-- A word of `n + 1` letters. -/
def ofLength (n : Nat) : Word where
  text := List.replicate (n + 1) 'x'
  ne_nil := by simp
  letters c hc := by
    rw [List.eq_of_mem_replicate hc]
    rfl

instance : Inhabited Word := ⟨ofLength 0⟩

end Word

namespace Node

/-! ## Marked trees -/

/-- Where a mark is in a tree: in a text with the given parent, in a comment, or in the value of
an attribute. -/
inductive Place where
  | text (parent : Option TagHead)
  | comment
  | value (key : Text)
  deriving DecidableEq, Repr

/-- The key of the attribute in whose value the place is. -/
def Place.key? : Place → Option Text
  | .text _ | .comment => none
  | .value key => some key

/-- A row of nodes with a mark in a text, in a comment or in the value of an attribute. -/
inductive Marked where
  | text (before : List Node) (left right : Text) (after : List Node)
  | comment (before : List Node) (left right : Text) (after : List Node)
  | value (before : List Node) (name : Text) (first : Attributes) (key left right : Text)
    (last : Attributes) (void : Bool) (children after : List Node)
  | inside (before : List Node) (head : TagHead) (row : Marked) (after : List Node)

namespace Marked

/-- The row with a text at its mark. -/
def fill (t : Text) : Marked → List Node
  | .text before left right after => before ++ .text (left ++ (t ++ right)) :: after
  | .comment before left right after => before ++ .comment (left ++ (t ++ right)) :: after
  | .value before name first key left right last void children after =>
    before ++ .tag ⟨name, first ++ (key, left ++ (t ++ right)) :: last, void⟩ children :: after
  | .inside before head row after => before ++ .tag head (row.fill t) :: after

/-- The place of the mark when the row stands under `parent`. -/
def place (parent : Option TagHead) : Marked → Place
  | .text .. => .text parent
  | .comment .. => .comment
  | .value _ _ _ key _ _ _ _ _ _ => .value key
  | .inside _ head row _ => row.place (some head)

/-- A marked row grows without its mark being touched. -/
theorem exists_grow (s : Marked) (ns : List Node) (depth : Nat) :
    ∃ s' : Marked, (∀ parent, s'.place parent = s.place parent) ∧
      ∀ t, s'.fill t = grow ns depth (s.fill t) := by
  induction s generalizing depth with
  | text before left right after =>
    refine ⟨.text before left right (grow ns depth after), fun _ => rfl, fun t => ?_⟩
    rw [fill, fill, grow_append_leaf ns depth before (by simp)]
  | comment before left right after =>
    refine ⟨.comment before left right (grow ns depth after), fun _ => rfl, fun t => ?_⟩
    rw [fill, fill, grow_append_leaf ns depth before (by simp)]
  | value before name first key left right last void children after =>
    by_cases h : depth = 0 ∨ after ≠ []
    · refine ⟨.value before name first key left right last void children (grow ns depth after),
        fun _ => rfl, fun t => ?_⟩
      rw [fill, fill, grow_append_cons ns before _ h]
    · obtain ⟨hdepth, hafter⟩ := not_or.mp h
      obtain ⟨depth, rfl⟩ := Nat.exists_eq_succ_of_ne_zero hdepth
      obtain rfl := Classical.not_not.mp hafter
      refine ⟨.value before name first key left right last void (grow ns depth children) [],
        fun _ => rfl, fun t => ?_⟩
      rw [fill, fill, grow_concat_tag]
  | inside before head row after ih =>
    by_cases h : depth = 0 ∨ after ≠ []
    · refine ⟨.inside before head row (grow ns depth after), fun _ => rfl, fun t => ?_⟩
      rw [fill, fill, grow_append_cons ns before _ h]
    · obtain ⟨hdepth, hafter⟩ := not_or.mp h
      obtain ⟨depth, rfl⟩ := Nat.exists_eq_succ_of_ne_zero hdepth
      obtain rfl := Classical.not_not.mp hafter
      obtain ⟨row', hplace, hfill⟩ := ih depth
      refine ⟨.inside before head row' [], fun _ => hplace _, fun t => ?_⟩
      rw [fill, fill, grow_concat_tag, hfill]

end Marked

theorem textNodes_word (w : Word) (boundary : Boundary) (atEnd : Bool) (left right : Text) :
    textNodes boundary atEnd (left ++ (w.text ++ right)) =
      [.text (left ++ (w.text ++ right))] := by
  have hne : left ++ (w.text ++ right) ≠ [] := by simp [w.ne_nil]
  rw [textNodes, if_neg hne, w.not_blank, Bool.and_false, if_neg Bool.false_ne_true]

namespace Builder

/-! ## Marks under open elements -/

/-- The innermost open element. -/
def parent (b : Builder) : Option TagHead := b.frames.head?.map Frame.head

/-- An element that is opened is the innermost. -/
theorem parent_openTag (b : Builder) {head : TagHead} (h : head.void = false) :
    (b.openTag head).parent = some head := by
  rw [openTag, h, if_neg Bool.false_ne_true]
  rfl

/-- A mark under the innermost open element is a mark in the tree. -/
theorem exists_marked_closeAll (row : Marked) (head : TagHead) (root : List Node)
    (frames : List Frame) : ∃ s : Marked, s.place none = row.place (some head) ∧
      ∀ t, (closeAll (some (.tag head (row.fill t))) root frames).reverse = s.fill t := by
  induction frames generalizing row head with
  | nil =>
    refine ⟨.inside root.reverse head row [], rfl, fun t => ?_⟩
    simp [closeAll, Marked.fill]
  | cons f fs ih =>
    obtain ⟨s, hplace, hfill⟩ := ih (.inside f.children.reverse head row []) f.head
    refine ⟨s, hplace, fun t => ?_⟩
    rw [← hfill t]
    simp [closeAll, Frame.node, Marked.fill]

/-- A mark in the row that is being filled is a mark in the tree. -/
theorem exists_marked_settled (b : Builder) (boundary : Boundary) {row : Marked}
    {ns : Text → List Node} (h : ∀ t, b.row.reverse ++ ns t = row.fill t) :
    ∃ s : Marked, s.place none = row.place b.parent ∧
      ∀ t, (b.settled boundary (ns t)).tree = s.fill t := by
  rcases b with ⟨_ | ⟨f, fs⟩, root, _, pending⟩
  · refine ⟨row, rfl, fun t => ?_⟩
    rw [← h t]
    simp [tree, settled, appendAll, closeAll, Builder.row]
  · obtain ⟨s, hplace, hfill⟩ := exists_marked_closeAll row f.head root fs
    refine ⟨s, hplace, fun t => ?_⟩
    rw [← hfill t, ← h t]
    simp [tree, settled, appendAll, closeAll, Frame.node, Builder.row]

/-! ## Builders that vary with a word -/

/-- The builder varies with a word, which is pending or has found its place in the tree. -/
inductive Tracks (place : Place) (B : Word → Builder) : Prop
  | pending (b : Builder) (left right : Text) (hready : b.Ready)
      (hplace : place = .text b.parent)
      (hB : ∀ w, B w = { b with pending := (left ++ (w.text ++ right)).reverse })
  | settled (s : Marked) (hplace : s.place none = place) (hready : ∀ w, (B w).Ready)
      (htree : ∀ w, (B w).tree = s.fill w.text) (halike : ∀ w w', (B w).Alike (B w'))

variable {place : Place} {B : Word → Builder}

/-- What a token adds to the tree has the mark in it, and the builders go on alike. -/
theorem tracks_of_added (b : Builder) (row : Marked) (ns : Text → List Node)
    (token : Word → Token) (hready : ∀ w, (B w).Ready) (hframes : ∀ w, (B w).frames = b.frames)
    (hroot : ∀ w, (B w).root = b.root) (hrow : ∀ t, b.row.reverse ++ ns t = row.fill t)
    (hadded : ∀ w, (B w).added (token w) = ns w.text)
    (halike : ∀ w w', ((B w).take (token w)).Alike ((B w').take (token w'))) :
    Tracks (row.place b.parent) fun w => (B w).take (token w) := by
  obtain ⟨s, hplace, hfill⟩ := exists_marked_settled b .closed hrow
  refine .settled s hplace (fun w => (hready w).take _) (fun w => ?_) halike
  have htree : (B w).tree = b.tree := by rw [tree, tree, hframes, hroot]
  rw [tree_take (hready w), hadded, hframes, htree, ← tree_settled b .closed, hfill]

/-- Pending text with a word in it becomes a text of the row. -/
theorem Tracks.of_pending {b : Builder} {left right : Text} (hready : b.Ready)
    (hB : ∀ w, B w = { b with pending := (left ++ (w.text ++ right)).reverse })
    (ns : List Node) {token : Token} (hadded : ∀ w, (B w).added token =
      textNodes b.boundary false (left ++ (w.text ++ right)) ++ ns)
    (halike : ∀ w w', ((B w).take token).Alike ((B w').take token)) :
    Tracks (.text b.parent) fun w => (B w).take token := by
  have hrow : ∀ t, b.row.reverse ++ (.text (left ++ (t ++ right)) :: ns) =
      (Marked.text b.row.reverse left right ns).fill t := fun t => rfl
  refine tracks_of_added b _ _ (fun _ => token) (fun w => ?_) (fun w => ?_) (fun w => ?_) hrow
    (fun w => ?_) halike
  · rw [hB]
    exact hready
  · rw [hB]
  · rw [hB]
  · rw [hadded, textNodes_word]
    rfl

/-- No token takes a mark away or moves it. -/
theorem Tracks.take (h : Tracks place B) (token : Token) :
    Tracks place fun w => (B w).take token := by
  cases h with
  | settled s hplace hready htree halike =>
    obtain ⟨s', hplace', hfill⟩ := s.exists_grow ((B default).added token)
      (B default).frames.length
    refine .settled s' ((hplace' none).trans hplace) (fun w => (hready w).take token) (fun w => ?_)
      fun w w' => (halike w w').take token
    have hdepth : (B w).frames.length = (B default).frames.length := by
      rw [length_frames_eq, length_frames_eq, (halike w default).names]
    rw [tree_take (hready w), (halike w default).added, hdepth, htree, hfill]
  | pending b left right hready hplace hB =>
    subst hplace
    have hnames : ∀ w w', (B w).names = (B w').names := by
      intro w w'
      rw [hB, hB]
      rfl
    have htexts : ∀ w, textNodes (B w).boundary false (B w).pending.reverse =
        textNodes b.boundary false (left ++ (w.text ++ right)) := by
      intro w
      rw [hB, List.reverse_reverse]
    have hopen : ∀ w name, (B w).hasOpen name = b.hasOpen name := by
      intro w name
      rw [hB]
      rfl
    cases token with
    | text content =>
      refine .pending b left (right ++ content) hready rfl fun w => ?_
      simp [hB, Builder.take]
    | lone =>
      refine .pending b left (right ++ ['<']) hready rfl fun w => ?_
      simp [hB, Builder.take]
    | comment body =>
      refine .of_pending hready hB [.comment body] (fun w => ?_)
        fun w w' => alike_leaf (hnames w w') _ _
      rw [added, htexts]
    | tag source =>
      cases hrole : roleOf source with
      | closes name =>
        have htake : ∀ w, (B w).take (.tag source) = (B w).close name := by
          simp [Builder.take, hrole]
        cases hname : b.hasOpen name with
        | true =>
          refine .of_pending hready hB [] (fun w => ?_) fun w w' => ?_
          · simp only [added, hrole, hopen, hname, if_true, htexts, List.append_nil]
          · rw [htake, htake]
            exact alike_close (hnames w w') ((hopen w name).trans hname)
        | false =>
          refine .pending b left right hready rfl fun w => ?_
          rw [htake, close_of_not_hasOpen ((hopen w name).trans hname), hB]
      | declares body =>
        refine .of_pending hready hB [.declaration body] (fun w => ?_) fun w w' => ?_
        · simp only [added, hrole, htexts]
        · simp only [Builder.take, hrole]
          exact alike_leaf (hnames w w') _ _
      | opens head =>
        refine .of_pending hready hB [.tag head []] (fun w => ?_) fun w w' => ?_
        · simp only [added, hrole, htexts]
        · simp only [Builder.take, hrole]
          exact alike_openTag (hnames w w') rfl rfl

theorem Tracks.foldl_take (h : Tracks place B) (tokens : List Token) :
    Tracks place fun w => tokens.foldl Builder.take (B w) := by
  induction tokens generalizing B with
  | nil => exact h
  | cons token tokens ih => exact ih (h.take token)

/-- At the end of the document the mark has its place. -/
theorem Tracks.finish (h : Tracks place B) :
    ∃ s : Marked, s.place none = place ∧ ∀ w, (B w).finish = s.fill w.text := by
  cases h with
  | settled s hplace hready htree halike =>
    obtain ⟨s', hplace', hfill⟩ := s.exists_grow
      (textNodes (B default).boundary true (B default).pending.reverse) (B default).frames.length
    refine ⟨s', (hplace' none).trans hplace, fun w => ?_⟩
    have hlike := halike w default
    have hdepth : (B w).frames.length = (B default).frames.length := by
      rw [length_frames_eq, length_frames_eq, hlike.names]
    have hfinish : (B w).finish = ((B w).flush true).tree := rfl
    rw [hfinish, tree_flush (hready w), hlike.boundary, hlike.pending, hdepth, htree, hfill]
  | pending b left right hready hplace hB =>
    have hrow : ∀ t, b.row.reverse ++ [.text (left ++ (t ++ right))] =
        (Marked.text b.row.reverse left right []).fill t := fun t => rfl
    obtain ⟨s, hs, hfill⟩ := exists_marked_settled b b.boundary hrow
    refine ⟨s, hs.trans hplace.symm, fun w => ?_⟩
    have hw : (B w).Ready := by
      rw [hB]
      exact hready
    have hfinish : (B w).finish = ((B w).flush true).tree := rfl
    rw [hfinish, tree_flush hw, ← hfill, tree_settled, hB, List.reverse_reverse, textNodes_word]
    rfl

end Builder

/-! ## Tokens that vary with a word -/

/-- The token varies with a word, which goes to the given place when the token is taken under
`parent`. -/
inductive Carries (parent : Option TagHead) : Place → (Word → Token) → Prop
  | text (left right : Text) :
    Carries parent (.text parent) fun w => .text (left ++ (w.text ++ right))
  | comment (left right : Text) :
    Carries parent .comment fun w => .comment (left ++ (w.text ++ right))
  | value (source : Word → Text) (name : Text) (first : Attributes) (key left right : Text)
    (last : Attributes) (void : Bool)
    (hrole : ∀ w, roleOf (source w) =
      .opens ⟨name, first ++ (key, left ++ (w.text ++ right)) :: last, void⟩) :
    Carries parent (.value key) fun w => .tag (source w)

theorem Carries.tracks {b : Builder} (hb : b.Ready) {place : Place} {token : Word → Token}
    (h : Carries b.parent place token) : Builder.Tracks place fun w => b.take (token w) := by
  have htexts : ∀ (row : Text → Node) (t : Text), b.row.reverse ++
      (textNodes b.boundary false b.pending.reverse ++ [row t]) =
        (b.row.reverse ++ textNodes b.boundary false b.pending.reverse) ++ row t :: [] := by simp
  cases h with
  | text left right =>
    refine .pending b (b.pending.reverse ++ left) right hb rfl fun w => ?_
    simp [Builder.take]
  | comment left right =>
    exact Builder.tracks_of_added b
      (.comment (b.row.reverse ++ textNodes b.boundary false b.pending.reverse) left right []) _ _
      (fun _ => hb) (fun _ => rfl) (fun _ => rfl) (htexts fun t => .comment (left ++ (t ++ right)))
      (fun _ => rfl) fun w w' => Builder.alike_leaf rfl _ _
  | value source name first key left right last void hrole =>
    refine Builder.tracks_of_added b
      (.value (b.row.reverse ++ textNodes b.boundary false b.pending.reverse) name first key left
        right last void [] []) _ _ (fun _ => hb) (fun _ => rfl) (fun _ => rfl)
      (htexts fun t => .tag ⟨name, first ++ (key, left ++ (t ++ right)) :: last, void⟩ [])
      (fun w => ?_) fun w w' => ?_
    · simp only [Builder.added, hrole]
    · simp only [Builder.take, hrole]
      exact Builder.alike_openTag rfl rfl rfl

/-- When one token of a document varies with a word, so does its tree, in one place. -/
theorem exists_marked {before : List Token} {place : Place} {token : Word → Token}
    (h : Carries (before.foldl Builder.take {}).parent place token) (after : List Token) :
    ∃ s : Marked, s.place none = place ∧
      ∀ w, ofTokens (before ++ token w :: after) = s.fill w.text := by
  have hempty : Builder.Ready {} := fun hboundary => nomatch hboundary
  have hready := hempty.foldl_take before
  obtain ⟨s, hplace, hfill⟩ := ((h.tracks hready).foldl_take after).finish
  refine ⟨s, hplace, fun w => ?_⟩
  rw [← hfill, ofTokens, List.foldl_append, List.foldl_cons]

/-! ## One place only -/

/-- The lengths of the values under a key. -/
def valueRoom (k : Option Text) (attributes : Attributes) : Nat :=
  (attributes.map fun a => if k = some a.1 then a.2.length else 0).sum

mutual

/-- How much text there is in the values of attributes of the name `k`, or, when there is no name,
in texts and comments. -/
def room (k : Option Text) : Node → Nat
  | .text content | .comment content => if k = none then content.length else 0
  | .declaration _ => 0
  | .tag head children => valueRoom k head.attributes + roomAll k children

/-- The room in a row. -/
def roomAll (k : Option Text) : List Node → Nat
  | [] => 0
  | n :: ns => room k n + roomAll k ns

end

theorem roomAll_append (k : Option Text) (ns ms : List Node) :
    roomAll k (ns ++ ms) = roomAll k ns + roomAll k ms := by
  induction ns with
  | nil => simp [roomAll]
  | cons n ns ih => simp only [List.cons_append, roomAll, ih, Nat.add_assoc]

/-- The text at a mark takes room at its place and nowhere else. -/
theorem Marked.exists_room (s : Marked) (k : Option Text) (parent : Option TagHead) :
    ∃ n, ∀ t, roomAll k (s.fill t) = n + if k = (s.place parent).key? then t.length else 0 := by
  induction s generalizing parent with
  | text before left right after =>
    refine ⟨roomAll k (before ++ .text (left ++ right) :: after), fun t => ?_⟩
    simp only [fill, roomAll_append, roomAll, room, place, Place.key?, List.length_append]
    by_cases hk : k = none
    · simp only [hk, if_true]
      omega
    · simp only [hk, if_false]
      omega
  | comment before left right after =>
    refine ⟨roomAll k (before ++ .comment (left ++ right) :: after), fun t => ?_⟩
    simp only [fill, roomAll_append, roomAll, room, place, Place.key?, List.length_append]
    by_cases hk : k = none
    · simp only [hk, if_true]
      omega
    · simp only [hk, if_false]
      omega
  | value before name first key left right last void children after =>
    refine ⟨roomAll k (before ++
      .tag ⟨name, first ++ (key, left ++ right) :: last, void⟩ children :: after), fun t => ?_⟩
    simp only [fill, roomAll_append, roomAll, room, place, Place.key?, valueRoom, List.map_append,
      List.map_cons, List.sum_append, List.sum_cons, List.length_append]
    by_cases hk : k = some key
    · simp only [hk, if_true]
      omega
    · simp only [hk, if_false]
      omega
  | inside before head row after ih =>
    obtain ⟨n, hn⟩ := ih (some head)
    refine ⟨roomAll k before + valueRoom k head.attributes + n + roomAll k after, fun t => ?_⟩
    have hplace : (Marked.inside before head row after).place parent = row.place (some head) := rfl
    rw [hplace]
    simp only [fill, roomAll_append, roomAll, room, hn]
    omega

/-- A tree depends on a word in one kind of place only. -/
theorem Marked.key?_eq_of_fill_eq {s s' : Marked}
    (h : ∀ w : Word, s.fill w.text = s'.fill w.text) (parent : Option TagHead) :
    (s.place parent).key? = (s'.place parent).key? := by
  obtain ⟨n, hn⟩ := s.exists_room (s.place parent).key? parent
  obtain ⟨m, hm⟩ := s'.exists_room (s.place parent).key? parent
  -- a longer word makes a difference in the one tree, so it does in the other
  have hshort := (hn (Word.ofLength 0).text).symm.trans
    ((congrArg _ (h (Word.ofLength 0))).trans (hm _))
  have hlong := (hn (Word.ofLength 1).text).symm.trans
    ((congrArg _ (h (Word.ofLength 1))).trans (hm _))
  simp only [if_true, Word.ofLength, List.length_replicate] at hshort hlong
  split at hshort
  · assumption
  · next hne =>
    rw [if_neg hne] at hlong
    omega

end Node

end LiveMarkup
