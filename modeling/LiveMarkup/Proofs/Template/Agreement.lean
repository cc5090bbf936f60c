import LiveMarkup.Proofs.Template.Documents
import LiveMarkup.Proofs.Template.Owners

/-!
# Agreement on placeholders

The template scanner goes by the last angle bracket before a placeholder, the reader of markup by
quotes, comments and raw text. `LiesAt` says what the reader makes of a placeholder: with words at all
boundaries, the tree depends on the word at one of them in one place. On drafts the two agree, and
values are left without entities only in script and style elements. On other fragments they need
not: a `>` in a quoted value before a placeholder of the same tag, or the name of a script element in
a comment, leads the scanner astray.
-/

namespace LiveMarkup

/-- The node is a tag. -/
def Node.isTag : Node → Bool
  | .tag .. => true
  | .text _ | .comment _ | .declaration _ => false

namespace Template

/-- The document of the fragments with the word `w` at the boundary `i` and `m` at all others. -/
def document (fragments : List Text) (m : Word) (i : Nat) (w : Word) : List Node :=
  Node.parse (Text.interleave fragments
    ((List.replicate (fragments.length - 1) m.text).set i w.text))

/-- The word at the boundary `i` of the fragments is in the place: with the word `m` at all other
boundaries, the tree of the document depends on this one there and only there. -/
def LiesAt (fragments : List Text) (m : Word) (i : Nat) (place : Node.Place) : Prop :=
  ∃ s : Node.Marked, s.place none = place ∧ ∀ w, document fragments m i w = s.fill w.text

/-- The template and the tree agree on the boundary `i`: a part for an attribute takes its value
exactly when a word there is in the value of an attribute of this name, and a part for a text exactly
when the word is in a text or a comment. -/
def Agrees (t : Template) (fragments : List Text) (m : Word) (i : Nat) : Prop :=
  (∀ key, (∃ b, t.owners[i]? = some (.binding b) ∧ b.rawName = key) ↔
    LiesAt fragments m i (.value key)) ∧
  ((∃ tag, t.owners[i]? = some (.text tag)) ↔
    (∃ parent, LiesAt fragments m i (.text parent)) ∨ LiesAt fragments m i .comment)

/-- A placeholder is in the value of one attribute only, or in none. -/
theorem LiesAt.key?_eq {fragments : List Text} {m : Word} {i : Nat} {place place' : Node.Place}
    (h : LiesAt fragments m i place) (h' : LiesAt fragments m i place') :
    place.key? = place'.key? := by
  obtain ⟨s, rfl, hs⟩ := h
  obtain ⟨s', rfl, hs'⟩ := h'
  exact Node.Marked.key?_eq_of_fill_eq (fun w => (hs w).symm.trans (hs' w)) none

/-- There is more text in a place when a longer word is there. -/
theorem LiesAt.roomAll_lt {fragments : List Text} {m : Word} {i : Nat} {place : Node.Place}
    (h : LiesAt fragments m i place) :
    Node.roomAll place.key? (document fragments m i (.ofLength 0)) <
      Node.roomAll place.key? (document fragments m i (.ofLength 1)) := by
  obtain ⟨s, rfl, hs⟩ := h
  obtain ⟨n, hn⟩ := s.exists_room (s.place none).key? none
  rw [hs, hs, hn, hn]
  simp [Word.ofLength]

/-- Only under an element of the document a text has a parent. -/
theorem LiesAt.any_isTag {fragments : List Text} {m : Word} {i : Nat} {head : TagHead}
    (h : LiesAt fragments m i (.text (some head))) (w : Word) :
    (document fragments m i w).any Node.isTag = true := by
  obtain ⟨s, hplace, hs⟩ := h
  rw [hs]
  cases s with
  | inside before head' row after => simp [Node.Marked.fill, Node.isTag]
  | text | comment | value => cases hplace

theorem length_owners (t : Template) : t.owners.length = t.slotCount := by
  simp only [owners, Tiling.owners, slotCount_eq, segments, List.length_flatMap,
    List.length_replicate]

end Template

/-! ## Fragments of a draft -/

namespace Piece

variable {α : Type}

theorem interleave_cut (f : α → Text) (ps : List (Piece α)) :
    Text.interleave ((cut ps).1 :: (cut ps).2) ((labels ps).map f) = fill f ps := by
  induction ps with
  | nil => rfl
  | cons p ps ih =>
    cases p with
    | literal t =>
      rw [fill, ← ih, cut, labels]
      cases labels ps with
      | nil => simp [Text.interleave]
      | cons a as => simp [Text.interleave]
    | hole a => rw [fill, ← ih]; rfl

theorem length_cut (ps : List (Piece α)) : (cut ps).2.length = (labels ps).length := by
  induction ps with
  | nil => rfl
  | cons p ps ih => cases p <;> simp [cut, labels, ih]

end Piece

namespace Draft

variable {α : Type}

theorem labels_pieces (d : Draft α) : Piece.labels d.pieces = d.holes.map Prod.fst := by
  have hblocks : ∀ blocks : List (Block α), Piece.labels (blocks.flatMap Block.pieces) =
      (blocks.flatMap Block.holes).map Prod.fst := by
    intro blocks
    induction blocks with
    | nil => rfl
    | cons b blocks ih => simp [b.labels_pieces, ih]
  rw [pieces, Piece.labels_append, hblocks, d.ending.labels_pieces, holes, List.map_append]

variable [DecidableEq α]

/-- The words at the boundaries are the words in the holes. -/
theorem map_update {labels : List α} (hdistinct : labels.Nodup) {i : Nat} {a : α}
    (ha : labels[i]? = some a) (m w : Word) :
    labels.map (Word.texts (Function.update (fun _ => m) a w)) =
      (List.replicate labels.length m.text).set i w.text := by
  induction labels generalizing i with
  | nil => cases ha
  | cons b labels ih =>
    rw [List.nodup_cons] at hdistinct
    cases i with
    | zero =>
      obtain rfl : b = a := by simpa using ha
      have hrest : labels.map (Word.texts (Function.update (fun _ => m) b w)) =
          List.replicate labels.length m.text := by
        rw [List.map_eq_replicate_iff]
        intro c hc
        have hne : c ≠ b := fun heq => hdistinct.1 (heq ▸ hc)
        rw [Word.texts, Function.update_of_ne hne]
      rw [List.map_cons, hrest, Word.texts, Function.update_self]
      rfl
    | succ i =>
      rw [List.getElem?_cons_succ] at ha
      have hne : b ≠ a := fun heq => hdistinct.1 (heq ▸ List.mem_of_getElem? ha)
      rw [List.map_cons, ih hdistinct.2 ha, Word.texts, Function.update_of_ne hne]
      rfl

/-- A hole lies where the draft says that it is. -/
theorem exists_liesAt (d : Draft α) (m : Word) {i : Nat} {a : α} {site : Site}
    (ha : d.holes[i]? = some (a, site)) :
    ∃ place, site.Allows place ∧ Template.LiesAt d.fragments m i place := by
  obtain ⟨s, hallows, hfill⟩ := d.exists_marked (List.mem_of_getElem? ha) fun _ => m
  refine ⟨s.place none, hallows, s, rfl, fun w => ?_⟩
  have hlabel : (Piece.labels d.pieces)[i]? = some a := by
    rw [d.labels_pieces, List.getElem?_map, ha]
    rfl
  have hdistinct : (Piece.labels d.pieces).Nodup := by
    rw [d.labels_pieces]
    exact d.distinct
  have hlength : d.fragments.length - 1 = (Piece.labels d.pieces).length := by
    rw [fragments, List.length_cons, Piece.length_cut, Nat.add_sub_cancel]
  rw [← hfill, fill, ← Piece.interleave_cut, map_update hdistinct hlabel, ← hlength]
  rfl

/-- The part that takes the value of a placeholder of a draft, and where the placeholder is. -/
theorem exists_site {P : Text → Prop} {d : Draft α} {t : Template} (hP : P [])
    (hnames : ∀ s ∈ d.statics, Delimiter.NamesIn P s)
    (ht : Template.ofFragments d.fragments = .ok t) (m : Word) {i : Nat} {part : Part}
    (hpart : t.owners[i]? = some part) :
    ∃ site : Site, site.Matches P part ∧
      ∃ place, site.Allows place ∧ Template.LiesAt d.fragments m i place := by
  have hmatches := matches_owners hP hnames ht
  obtain ⟨hi, rfl⟩ := List.getElem?_eq_some_iff.mp hpart
  have hi' : i < d.holes.length := by
    have hlength := hmatches.length_eq
    rw [List.length_map] at hlength
    rwa [hlength]
  have hmatch := hmatches.get (by rwa [List.length_map]) hi
  obtain ⟨place, hallows, hlies⟩ := d.exists_liesAt m (List.getElem?_eq_getElem hi')
  exact ⟨d.holes[i].2, by simpa using hmatch, place, hallows, hlies⟩

/-- A part for an attribute takes values of the attribute, a part for a text those of a text or a
comment. -/
theorem Site.cases_of_matches {P : Text → Prop} {site : Site} {part : Part} {place : Node.Place}
    (hmatches : site.Matches P part) (hallows : site.Allows place) :
    (∃ b : Binding, part = .binding b ∧ place = .value b.rawName) ∨
      (∃ tag, part = .text tag) ∧ ((∃ parent, place = .text parent) ∨ place = .comment) := by
  cases site with
  | text => exact .inr ⟨hmatches.imp fun _ h => h.1, .inl hallows⟩
  | comment => exact .inr ⟨hmatches.imp fun _ h => h.1, .inr hallows⟩
  | body => exact .inr ⟨hmatches, .inl (hallows.imp' some fun _ h => h.2.2)⟩
  | value key =>
    obtain ⟨b, hb, rfl⟩ := hmatches
    exact .inl ⟨b, hb, hallows⟩

/-- The scanner and the reader of markup agree on the placeholders of a draft. -/
theorem agrees {d : Draft α} {t : Template} (ht : Template.ofFragments d.fragments = .ok t)
    (m : Word) {i : Nat} (hi : i < t.slotCount) : t.Agrees d.fragments m i := by
  have hany : ∀ s ∈ d.statics, Delimiter.NamesIn (fun _ => True) s := fun _ _ _ _ _ _ _ => trivial
  rw [← Template.length_owners] at hi
  have hpart := List.getElem?_eq_getElem hi
  obtain ⟨site, hmatches, place, hallows, hlies⟩ := exists_site trivial hany ht m hpart
  rw [Template.Agrees, hpart]
  rcases Site.cases_of_matches hmatches hallows with ⟨b, hb, rfl⟩ | ⟨⟨tag, hb⟩, hplace⟩
  · rw [hb]
    refine ⟨fun key => ⟨?_, fun h => ?_⟩, ⟨?_, ?_⟩⟩
    · rintro ⟨b', heq, rfl⟩
      cases heq
      exact hlies
    · exact ⟨b, rfl, Option.some.inj (hlies.key?_eq h)⟩
    · rintro ⟨tag, heq⟩
      cases heq
    · rintro (⟨parent, h⟩ | h) <;> cases hlies.key?_eq h
  · have hkey : place.key? = none := by
      rcases hplace with ⟨parent, rfl⟩ | rfl <;> rfl
    rw [hb]
    refine ⟨fun key => ⟨?_, fun h => ?_⟩, ⟨fun _ => ?_, fun _ => ⟨tag, rfl⟩⟩⟩
    · rintro ⟨b, heq, -⟩
      cases heq
    · cases hkey.symm.trans (hlies.key?_eq h)
    · rcases hplace with ⟨parent, rfl⟩ | rfl
      · exact .inl ⟨parent, hlies⟩
      · exact .inr hlies

/-- A paragraph with a title and a comment in it: `<p title="a{0}b">{1}<!-- {2} --></p>`. -/
def note : Draft Nat where
  blocks :=
    [.tag
      { name := "p".toList
        insides := [(.empty,
          { leading := ' '
            key := "title".toList
            gap := []
            gap' := []
            value := .quoted
              { quote := '"'
                run :=
                  { head := "a".toList
                    tail := [(0, "b".toList)]
                    head_plain := by simp
                    tail_plain := by simp }
                isQuote := .inl rfl
                hole := by simp
                not_closed := by decide +kernel
                uncommented := by decide +kernel }
            leading_space := rfl
            isKey := ⟨by decide +kernel, List.all_eq_true.mp (by decide +kernel)⟩
            key_word := List.all_eq_true.mp (by decide +kernel)
            gap_space := by simp
            gap'_space := by simp })]
        last := .empty
        slash := false
        name_start := ⟨'p', rfl, .inl rfl⟩
        name_chars := List.all_iff_forall_prop.mp (by decide +kernel)
        opened := by decide +kernel
        no_slash := by decide +kernel
        fresh := ⟨by decide +kernel, trivial⟩ }
      (by decide +kernel),
    .text (.single 1),
    .comment
      { run :=
          { head := " ".toList
            tail := [(2, " ".toList)]
            head_plain := by simp
            tail_plain := by simp }
        not_closed := by decide +kernel },
    .static (.tag "/p".toList (by decide +kernel) (by decide +kernel) (by decide +kernel)
      (by decide +kernel))]
  ending := .static []
  row :=
    ⟨⟨OpenAttribute.closed_of_not_mem (by decide +kernel), trivial⟩, rfl, trivial, rfl, rfl⟩
  distinct := by decide +kernel

theorem agrees_note : ∃ t, Template.ofFragments note.fragments = .ok t ∧
    ∀ i < t.slotCount, t.Agrees note.fragments (.ofLength 0) i := by
  have ht : Template.ofFragments note.fragments = .ok
      (Tiling.template ⟨"<p".toList,
        [(.binding
            { kind := .attribute
              name := "title".toList
              literals := ["a".toList, "b".toList]
              tag := "p".toList
              leading := ' ' }, ">".toList),
          (.text "p".toList, "<!-- ".toList), (.text "p".toList, " --></p>".toList)]⟩) :=
    Template.ofFragments_eq_ok (by decide +kernel)
  exact ⟨_, ht, fun i hi => agrees ht (.ofLength 0) hi⟩

/-- A `>` in a value between quotes ends the tag for the scanner, which then takes the placeholder
behind it for text. -/
theorem not_agrees : ¬∀ (fragments : List Text) (t : Template) (m : Word) (i : Nat),
    Template.ofFragments fragments = .ok t → (∀ s ∈ fragments, ¬m.text <:+: s) →
      i < t.slotCount → t.Agrees fragments m i := by
  intro h
  have hagrees := h ["<a title=\">".toList, "\">".toList]
    (Tiling.template ⟨"<a title=\">".toList, [(.text "a".toList, "\">".toList)]⟩) (.ofLength 0) 0
    (Template.ofFragments_eq_ok (by decide +kernel)) (by decide +kernel) (by decide +kernel)
  -- the word makes the value longer, and no text
  have hroom : ¬Node.roomAll none (Template.document ["<a title=\">".toList, "\">".toList]
      (.ofLength 0) 0 (.ofLength 0)) < Node.roomAll none (Template.document
        ["<a title=\">".toList, "\">".toList] (.ofLength 0) 0 (.ofLength 1)) := by decide +kernel
  rcases hagrees.2.mp ⟨_, rfl⟩ with ⟨parent, hlies⟩ | hlies
  · exact hroom hlies.roomAll_lt
  · exact hroom hlies.roomAll_lt

/-- Values are left without entities only in script and style elements: a part for a text whose tag
says so takes the value of a placeholder that is read in the body of such an element, when the
static texts of the draft outside of their open tags name none. -/
theorem exists_rawText {d : Draft α} {t : Template}
    (hnames : ∀ s ∈ d.statics, Delimiter.namesRaw s = false)
    (ht : Template.ofFragments d.fragments = .ok t) (m : Word) {i : Nat} {tag : Text}
    (hpart : t.owners[i]? = some (.text tag)) (hraw : EscapeContext.forTextIn tag = .rawText) :
    ∃ head : TagHead, head.void = false ∧ Node.isRawTextName head.name = true ∧
      Template.LiesAt d.fragments m i (.text (some head)) := by
  have hplain : ∀ s ∈ d.statics, Delimiter.NamesIn PlainTag s := fun s hs =>
    Delimiter.namesIn_plainTag (hnames s hs)
  obtain ⟨site, hmatches, place, hallows, hlies⟩ := exists_site plainTag_nil hplain ht m hpart
  have htag : ¬PlainTag tag := fun h => by rw [PlainTag, hraw] at h; cases h
  cases site with
  | body =>
    obtain ⟨head, hvoid, hname, rfl⟩ := hallows
    exact ⟨head, hvoid, hname, hlies⟩
  | text | comment =>
    obtain ⟨tag', heq, h⟩ := hmatches
    cases heq
    exact absurd h htag
  | value key =>
    obtain ⟨b, heq, -⟩ := hmatches
    cases heq

/-- A script with a value in its body: `<script>run({0})</script>`. -/
def program : Draft Nat where
  blocks :=
    [.raw
      { openTag :=
          { name := "script".toList
            insides := []
            last := .empty
            slash := false
            name_start := ⟨'s', rfl, .inl rfl⟩
            name_chars := List.all_iff_forall_prop.mp (by decide +kernel)
            opened := by decide +kernel
            no_slash := by decide +kernel
            fresh := trivial }
        body :=
          { head := "run(".toList
            tail := [(0, ")".toList)]
            head_plain := by simp
            tail_plain := by simp }
        isRaw := by decide +kernel
        settled := by decide +kernel
        unmarked := fun s hs w => by
          have hplain : ∀ s ∈ ["run(".toList, ")".toList], '<' ∉ s := by decide +kernel
          refine Node.unmarked_of_not_mem fun hmem => ?_
          rcases List.mem_append.mp hmem with hmem | hmem
          · exact hplain s hs hmem
          · exact absurd (w.letters _ hmem) (by decide)
        close := .tag "/script".toList (by decide +kernel) (by decide +kernel) (by decide +kernel)
          (by decide +kernel)
        uncommented := by decide +kernel
        closes := by decide +kernel }]
  ending := .static []
  row := ⟨trivial, rfl⟩
  distinct := by decide +kernel

theorem exists_rawText_program : ∃ head : TagHead, head.void = false ∧
    Node.isRawTextName head.name = true ∧
      Template.LiesAt program.fragments (.ofLength 0) 0 (.text (some head)) := by
  have ht : Template.ofFragments program.fragments = .ok
      (Tiling.template ⟨"<script>run(".toList, [(.text "script".toList, ")</script>".toList)]⟩) :=
    Template.ofFragments_eq_ok (by decide +kernel)
  exact exists_rawText (by decide +kernel) ht (.ofLength 0) (i := 0) rfl (by decide +kernel)

/-- The name of a script element in a comment leaves values behind the comment without entities. -/
theorem not_exists_rawText : ¬∀ (fragments : List Text) (t : Template) (m : Word) (i : Nat)
    (tag : Text), Template.ofFragments fragments = .ok t → (∀ s ∈ fragments, ¬m.text <:+: s) →
      t.owners[i]? = some (.text tag) → EscapeContext.forTextIn tag = .rawText →
        ∃ head : TagHead, head.void = false ∧ Node.isRawTextName head.name = true ∧
          Template.LiesAt fragments m i (.text (some head)) := by
  intro h
  obtain ⟨head, -, -, hlies⟩ := h ["<!-- <script> -->".toList, []]
    (Tiling.template ⟨"<!-- <script> -->".toList, [(.text "script".toList, [])]⟩) (.ofLength 0) 0
    "script".toList
    (Template.ofFragments_eq_ok (by decide +kernel)) (by decide +kernel) rfl (by decide +kernel)
  exact absurd (hlies.any_isTag (.ofLength 0)) (by decide +kernel)

end Draft

end LiveMarkup
