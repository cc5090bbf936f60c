import LiveMarkup.Proofs.Markup.Growth
import Mathlib.Data.List.Basic

/-!
# The order of a document

A walk through a tree that was read comes to its nodes in the order in which the document names
them, whatever close tags are missing, misplaced or stray. The text between tokens that make or close
a node is a `Run`; it becomes one text node, or less when it is blank (`Run.shown?`). That a walk
through the tree of a builder only ever gets longer at its end (`visitsAll_take`) carries this over
from the tokens to the tree: `visits_parse`.
-/

namespace LiveMarkup

/-- The text that a token brings. -/
def Token.consumed : Token → Text
  | .text content => content
  | .lone => ['<']
  | .comment _ | .tag _ => []

namespace Node

/-! ## Walking through a tree -/

/-- What a walk comes to: a node without what it holds. -/
inductive Visit where
  | text (content : Text)
  | comment (body : Text)
  | declaration (body : Text)
  | tag (head : TagHead)
  deriving DecidableEq, Repr

/-- The visit is to a text. -/
def Visit.isText : Visit → Bool
  | .text _ => true
  | .comment _ | .declaration _ | .tag _ => false

mutual

/-- What a walk through a node comes to: first the node, then what it holds. -/
def visits : Node → List Visit
  | .text content => [.text content]
  | .comment body => [.comment body]
  | .declaration body => [.declaration body]
  | .tag head children => .tag head :: visitsAll children

/-- What a walk through a row of nodes comes to. -/
def visitsAll : List Node → List Visit
  | [] => []
  | n :: ns => visits n ++ visitsAll ns

end

/-! ## Runs of text -/

/-- The node that a token makes by itself. -/
def Visit.ofToken? : Token → Option Visit
  | .comment body => some (.comment body)
  | .tag source =>
    match roleOf source with
    | .opens head => some (.tag head)
    | .declares body => some (.declaration body)
    | .closes _ => none
  | .text _ | .lone => none

/-- Blank text shrinks behind the token: it is a comment, a declaration, a void tag or a close
tag. -/
def closesOff : Token → Bool
  | .comment _ => true
  | .tag source =>
    match roleOf source with
    | .opens head => head.void
    | .declares _ | .closes _ => true
  | .text _ | .lone => false

/-- The names of the elements that are open behind a token, the innermost first, when it ends a run
of text. Text and lone brackets belong to the run, and a close tag without an open element of its
name is passed over. -/
def namesBehind? (names : List Text) : Token → Option (List Text)
  | .comment _ => some names
  | .tag source =>
    match roleOf source with
    | .opens head => some (if head.void then names else head.name :: names)
    | .declares _ => some names
    | .closes name =>
      if names.any fun n => Text.sameLetters n name then
        some (names.dropWhile fun n => !Text.sameLetters n name).tail
      else none
  | .text _ | .lone => none

/-- The text between two tokens of which each makes or closes a node. -/
structure Run where
  /-- The token before the text; none at the start of the document. -/
  after : Option Token
  content : Text
  /-- The token behind the text; none at the end of the document. -/
  before : Option Token
  deriving DecidableEq, Repr

namespace Run

/-- The runs of the tokens that follow `content`, which stands behind `after` where elements called
`names` are open. -/
def cut (names : List Text) (after : Option Token) (content : Text) : List Token → List Run
  | [] => [⟨after, content, none⟩]
  | token :: tokens =>
    match namesBehind? names token with
    | some names => ⟨after, content, some token⟩ :: cut names (some token) [] tokens
    | none => cut names after (content ++ token.consumed) tokens

/-- The text that the tree shows for the run: blank text behind a token that closes something off
is one space, or nothing at the end of the document; all other text stays as it is. -/
def shown? (r : Run) : Option Text :=
  if r.content = [] then none
  else if r.after.any closesOff && r.content.all Text.isBlank then
    if r.before.isNone then none else some [' ']
  else some r.content

/-- What a walk comes to for the run and the token behind it. -/
def visits (r : Run) : List Visit :=
  (r.shown?.map Visit.text).toList ++ (r.before.bind Visit.ofToken?).toList

variable {names : List Text} {after : Option Token} {content : Text} {tokens : List Token}

/-- The runs hold all text of the tokens. -/
theorem flatMap_content_cut : (cut names after content tokens).flatMap Run.content =
    content ++ tokens.flatMap Token.consumed := by
  induction tokens generalizing names after content with
  | nil => simp [cut]
  | cons token tokens ih =>
    rw [cut]
    cases hnames : namesBehind? names token with
    | none =>
      rw [ih, List.flatMap_cons, List.append_assoc]
    | some names' =>
      have hconsumed : token.consumed = [] := by
        cases token with
        | text | lone => cases hnames
        | comment | tag => rfl
      rw [List.flatMap_cons, ih, List.flatMap_cons, hconsumed]

/-- The tokens that end runs are those that make nodes, and more that make none. -/
theorem filterMap_before_cut : (cut names after content tokens).filterMap
    (fun r => r.before.bind Visit.ofToken?) = tokens.filterMap Visit.ofToken? := by
  induction tokens generalizing names after content with
  | nil => rfl
  | cons token tokens ih =>
    rw [cut]
    cases hnames : namesBehind? names token with
    | none =>
      have hmakes : Visit.ofToken? token = none := by
        cases token with
        | text | lone => rfl
        | comment => cases hnames
        | tag source =>
          rw [namesBehind?] at hnames
          rw [Visit.ofToken?]
          cases hrole : roleOf source with
          | closes name => rfl
          | opens head => rw [hrole] at hnames; cases hnames
          | declares body => rw [hrole] at hnames; cases hnames
      rw [ih, List.filterMap_cons_none hmakes]
    | some names' =>
      rw [List.filterMap_cons, List.filterMap_cons, ih]
      rfl

theorem isText_of_ofToken? {token : Token} {v : Visit} (h : Visit.ofToken? token = some v) :
    v.isText = false := by
  cases token with
  | text | lone => cases h
  | comment body => cases h; rfl
  | tag source =>
    rw [Visit.ofToken?] at h
    split at h <;> cases h <;> rfl

/-- Apart from texts a walk comes to what the tokens behind the runs make. -/
theorem filter_visits (r : Run) : r.visits.filter (fun v => !v.isText) =
    (r.before.bind Visit.ofToken?).toList := by
  have htext : ((r.shown?.map Visit.text).toList).filter (fun v => !v.isText) = [] := by
    cases r.shown? <;> rfl
  rw [visits, List.filter_append, htext, List.nil_append]
  cases hbefore : r.before.bind Visit.ofToken? with
  | none => rfl
  | some v =>
    obtain ⟨token, -, hv⟩ := Option.bind_eq_some_iff.mp hbefore
    simp [isText_of_ofToken? hv]

end Run

/-! ## The walk through a builder -/

theorem visitsAll_append (ns ms : List Node) :
    visitsAll (ns ++ ms) = visitsAll ns ++ visitsAll ms := by
  induction ns with
  | nil => rfl
  | cons n ns ih => rw [List.cons_append, visitsAll, visitsAll, ih, List.append_assoc]

theorem visitsAll_singleton (n : Node) : visitsAll [n] = visits n := by
  rw [visitsAll, visitsAll, List.append_nil]

/-- A walk through a text run comes to the text that is shown. -/
theorem visitsAll_textNodes {boundary : Boundary} {r : Run}
    (h : decide (boundary = .closed) = r.after.any closesOff) :
    visitsAll (textNodes boundary r.before.isNone r.content) =
      (r.shown?.map Visit.text).toList := by
  rw [textNodes, Run.shown?, h]
  by_cases hempty : r.content = []
  · rw [if_pos hempty, if_pos hempty]
    rfl
  rw [if_neg hempty, if_neg hempty]
  split
  · cases r.before <;> rfl
  · rfl

namespace Builder

variable {b : Builder}

/-- A walk goes through the elements that are open from the outermost on, and comes to the newest
node last. -/
theorem visitsAll_closeAll (child : Option Node) (root : List Node) (frames : List Frame) :
    visitsAll (closeAll child root frames).reverse = visitsAll root.reverse ++
      (frames.reverse.flatMap (fun f => .tag f.head :: visitsAll f.children.reverse) ++
        visitsAll child.toList) := by
  induction frames generalizing child with
  | nil => cases child <;> simp [closeAll, visitsAll_append, visitsAll]
  | cons f fs ih =>
    have hchildren : visitsAll (child.toList ++ f.children).reverse =
        visitsAll f.children.reverse ++ visitsAll child.toList := by
      cases child <;> simp [visitsAll_append, visitsAll]
    rw [closeAll, ih, Option.toList_some, visitsAll_singleton, Frame.node, visits, hchildren]
    simp

/-- What is put behind the latest child is visited last. -/
theorem visitsAll_settled (b : Builder) (boundary : Boundary) (ns : List Node) :
    visitsAll (b.settled boundary ns).tree = visitsAll b.tree ++ visitsAll ns := by
  rw [tree, tree, visitsAll_closeAll, visitsAll_closeAll]
  rcases b with ⟨_ | ⟨f, fs⟩, root, _, pending⟩ <;>
    simp [settled, appendAll, visitsAll_append, visitsAll]

/-- A token makes the walk longer at its end. -/
theorem visitsAll_take (hb : b.Ready) (token : Token) :
    visitsAll (b.take token).tree = visitsAll b.tree ++ visitsAll (b.added token) := by
  rw [tree_take hb, ← tree_settled b .closed, visitsAll_settled]

theorem visitsAll_finish (hb : b.Ready) : visitsAll b.finish =
    visitsAll b.tree ++ visitsAll (textNodes b.boundary true b.pending.reverse) := by
  have hfinish : b.finish = (b.flush true).tree := rfl
  rw [hfinish, flush_eq hb, visitsAll_settled]

/-! ## Tokens that end a run -/

/-- What a builder has become behind a token that ends a run of text. -/
structure EndsRun (b : Builder) (token : Token) (names : List Text) : Prop where
  names : (b.take token).names = names
  pending : (b.take token).pending = []
  boundary : decide ((b.take token).boundary = .closed) = closesOff token
  added : visitsAll (b.added token) =
    visitsAll (textNodes b.boundary false b.pending.reverse) ++ (Visit.ofToken? token).toList

theorem names_openTag (b : Builder) (head : TagHead) :
    (b.openTag head).names = if head.void then b.names else head.name :: b.names := by
  unfold openTag
  split
  · exact names_leaf b _
  · exact congrArg (head.name :: ·) (names_flush b false)

theorem pending_openTag (b : Builder) (head : TagHead) : (b.openTag head).pending = [] := by
  unfold openTag
  split
  · exact pending_leaf b _
  · exact pending_flush b false

theorem boundary_openTag (b : Builder) (head : TagHead) :
    decide ((b.openTag head).boundary = .closed) = head.void := by
  unfold openTag
  cases head.void <;> rfl

theorem visitsAll_concat (ns : List Node) (n : Node) :
    visitsAll (ns ++ [n]) = visitsAll ns ++ visits n := by
  rw [visitsAll_append, visitsAll_singleton]

/-- A token that makes a node without children ends a run. -/
theorem endsRun_leaf {token : Token} {n : Node} (htake : b.take token = b.leaf n)
    (hcloses : closesOff token = true)
    (hadded : b.added token = textNodes b.boundary false b.pending.reverse ++ [n])
    (hvisits : visits n = (Visit.ofToken? token).toList) : b.EndsRun token b.names where
  names := by rw [htake, names_leaf]
  pending := by rw [htake, pending_leaf]
  boundary := by rw [htake, hcloses]; rfl
  added := by rw [hadded, visitsAll_concat, hvisits]

/-- A token that ends a run leaves nothing pending. -/
theorem endsRun {token : Token} {names : List Text}
    (h : namesBehind? b.names token = some names) : b.EndsRun token names := by
  cases token with
  | text | lone => cases h
  | comment body =>
    cases h
    exact endsRun_leaf rfl rfl rfl rfl
  | tag source =>
    rw [namesBehind?] at h
    cases hrole : roleOf source with
    | opens head =>
      have htake : b.take (.tag source) = b.openTag head := by simp [take, hrole]
      rw [hrole] at h
      cases h
      exact
        { names := by rw [htake, names_openTag]
          pending := by rw [htake, pending_openTag]
          boundary := by rw [htake, boundary_openTag, closesOff, hrole]
          added := by simp only [added, hrole, visitsAll_concat, Visit.ofToken?, visits]; rfl }
    | declares body =>
      have htake : b.take (.tag source) = b.leaf (.declaration body) := by simp [take, hrole]
      rw [hrole] at h
      cases h
      apply endsRun_leaf htake
      · rw [closesOff, hrole]
      · rw [added, hrole]
      · rw [Visit.ofToken?, hrole]
        rfl
    | closes name =>
      have htake : b.take (.tag source) = b.close name := by simp [take, hrole]
      rw [hrole] at h
      simp only [← hasOpen_eq, Option.ite_none_right_eq_some, Option.some.injEq] at h
      obtain ⟨hopen, rfl⟩ := h
      have hclose : b.close name =
          { b.flush false with
            frames := (closeThrough name none (b.flush false).root (b.flush false).frames).1
            root := (closeThrough name none (b.flush false).root (b.flush false).frames).2
            boundary := .closed } := by
        unfold close
        rw [← hasOpen, if_pos hopen]
      exact
        { names := by rw [htake, names_close, if_pos hopen]
          pending := by rw [htake, hclose]; exact pending_flush b false
          boundary := by rw [htake, closesOff, hrole, hclose]; rfl
          added := by simp [added, hrole, hopen, Visit.ofToken?] }

/-- The other tokens bring text at most. -/
theorem take_eq_withText {token : Token} (h : namesBehind? b.names token = none) :
    b.take token = b.withText token.consumed := by
  cases token with
  | comment body => cases h
  | text content => simp [take, withText, Token.consumed]
  | lone => rfl
  | tag source =>
    rw [namesBehind?] at h
    cases hrole : roleOf source with
    | opens head => rw [hrole] at h; cases h
    | declares body => rw [hrole] at h; cases h
    | closes name =>
      have htake : b.take (.tag source) = b.close name := by simp [take, hrole]
      rw [hrole] at h
      simp only [← hasOpen_eq, ite_eq_right_iff, reduceCtorEq, imp_false, Bool.not_eq_true] at h
      rw [htake, close_of_not_hasOpen h]
      rfl

/-- From any place in a document on, a walk comes to the runs that follow. -/
theorem visitsAll_foldl_take (hb : b.Ready) {after : Option Token}
    (hafter : decide (b.boundary = .closed) = after.any closesOff) (tokens : List Token) :
    visitsAll (tokens.foldl take b).finish =
      visitsAll b.tree ++ (Run.cut b.names after b.pending.reverse tokens).flatMap Run.visits := by
  induction tokens generalizing b after with
  | nil =>
    have htexts := visitsAll_textNodes (r := ⟨after, b.pending.reverse, none⟩) hafter
    rw [List.foldl_nil, visitsAll_finish hb, Run.cut, List.flatMap_singleton, Run.visits, ← htexts]
    simp
  | cons token tokens ih =>
    rw [List.foldl_cons, Run.cut]
    cases hnames : namesBehind? b.names token with
    | none =>
      have htake := take_eq_withText hnames
      have hready : (b.withText token.consumed).Ready := hb
      rw [htake, ih hready hafter]
      simp [withText, tree, names]
    | some names =>
      have hends := endsRun hnames
      have htexts := visitsAll_textNodes (r := ⟨after, b.pending.reverse, some token⟩) hafter
      have hboundary : decide ((b.take token).boundary = .closed) =
          (some token).any closesOff := hends.boundary
      rw [ih (hb.take token) hboundary, visitsAll_take hb, hends.added, hends.names, hends.pending,
        List.flatMap_cons, Run.visits, ← htexts]
      simp

end Builder

/-! ## Documents -/

/-- The runs of a document. -/
def runs (t : Text) : List Run := Run.cut [] none [] (documentTokens t)

/-- A walk through the tree of a document comes to one tag for each open tag, one comment for each
comment and one declaration for each declaration, in the order of the tokens; between them it comes
to the text of the runs, which hold all text of the document. -/
theorem visits_parse (t : Text) :
    (visitsAll (parse t)).filter (fun v => !v.isText) =
        (documentTokens t).filterMap Visit.ofToken? ∧
      visitsAll (parse t) = (runs t).flatMap Run.visits ∧
      (runs t).flatMap Run.content = (documentTokens t).flatMap Token.consumed := by
  have hstart : decide (Boundary.start = .closed) = (none : Option Token).any closesOff := rfl
  have hwalk : visitsAll (parse t) = (runs t).flatMap Run.visits :=
    Builder.visitsAll_foldl_take (b := {}) (fun h => nomatch h) hstart (documentTokens t)
  refine ⟨?_, hwalk, Run.flatMap_content_cut⟩
  calc (visitsAll (parse t)).filter (fun v => !v.isText)
      = (runs t).flatMap fun r => (r.before.bind Visit.ofToken?).toList := by
        rw [hwalk, List.filter_flatMap]
        exact List.flatMap_congr fun r _ => r.filter_visits
    _ = (runs t).filterMap fun r => r.before.bind Visit.ofToken? :=
        by rw [List.filterMap_eq_flatMap_toList]
    _ = (documentTokens t).filterMap Visit.ofToken? := Run.filterMap_before_cut

-- a close tag without an open element ends no run, and blank text behind a void tag goes away
example : runs "a</i> b<br> ".toList =
    [⟨none, "a b".toList, some (.tag "<br>".toList)⟩,
      ⟨some (.tag "<br>".toList), [' '], none⟩] := by
  decide +kernel

end Node

end LiveMarkup
