import LiveMarkup.Proofs.Template.Bindings
import LiveMarkup.Proofs.Template.Draft
import Mathlib.Data.List.Forall2

/-!
# Owners of holes

Which part of a template takes the value of each hole of a draft. `OwnedAt` says it of the rest of a
written-out draft wherever the scanner stands before it; the lemmas put one piece in front, and a
draft is gone through by induction on its blocks (`matches_owners`). That the scanner accepts the
fragments is a premise throughout: it turns down a question mark before a name with more than one
hole.
-/

namespace LiveMarkup

/-- The name of the attribute as it is written, with its sigil. -/
def Binding.rawName (b : Binding) : Text := b.kind.sigil ++ b.name

namespace Tiling

/-- The part that takes the value of each placeholder. -/
def owners (tiles : List (Part × Text)) : List Part :=
  tiles.flatMap fun tile => List.replicate tile.1.segments tile.1

theorem owners_cons (part : Part) (behind : Text) (tiles : List (Part × Text)) :
    owners ((part, behind) :: tiles) = List.replicate part.segments part ++ owners tiles :=
  List.flatMap_cons ..

end Tiling

namespace Template

/-- The part that takes the value of each placeholder. -/
def owners (t : Template) : List Part := Tiling.owners t.tiles

theorem rawName_bind (a : OpenAttribute) (tag first : Text) (literals : List Text)
    (h : 0 < literals.length) : (bind a tag first literals h).rawName = a.name :=
  BindingKind.sigil_append_ofName a.name

variable {cx : ScanContext} {string next tag : Text} {others : List Text} {t : Tiling}

/-- Behind a text there is a part for a text. -/
theorem Scans.exists_text {comment : Bool} (h : Scans cx string (next :: others) t)
    (hadvance : cx.advance string = ⟨false, comment, tag⟩) :
    ∃ t', Scans ⟨false, comment, tag⟩ next others t' ∧
      Tiling.owners t.tiles = .text tag :: Tiling.owners t'.tiles := by
  cases h with
  | text hout h =>
    rw [hadvance] at h ⊢
    exact ⟨_, h, Tiling.owners_cons ..⟩
  | unquoted hin => rw [hadvance] at hin; cases hin
  | quoted hin => rw [hadvance] at hin; cases hin

/-- Behind an attribute whose value is not quoted there is a part with its name. -/
theorem Scans.exists_unquoted {a : OpenAttribute} (h : Scans cx string (next :: others) t)
    (hadvance : cx.advance string = ⟨true, false, tag⟩)
    (hfound : OpenAttribute.ofText? string = some a) (hquote : a.quote? = none) :
    ∃ t' b, Scans ⟨true, false, tag⟩ next others t' ∧ Binding.rawName b = a.name ∧
      Tiling.owners t.tiles = .binding b :: Tiling.owners t'.tiles := by
  cases h with
  | text hout => rw [hadvance] at hout; cases hout
  | unquoted hin hfound' hquote' h =>
    cases hfound.symm.trans hfound'
    rw [hadvance] at h
    exact ⟨_, _, h, rawName_bind .., Tiling.owners_cons ..⟩
  | quoted hin hfound' hquote' =>
    cases hfound.symm.trans hfound'
    cases hquote.symm.trans hquote'

/-- Behind an attribute whose value is quoted there is a part with its name, which takes all values
up to the closing quote. -/
theorem Scans.exists_quoted {a : OpenAttribute} {q : Char} {first after : Text} {skip : Nat}
    {pieces rest : List Text} (h : Scans cx string (next :: others) t)
    (hadvance : cx.advance string = ⟨true, false, tag⟩)
    (hfound : OpenAttribute.ofText? string = some a) (hquote : a.quote? = some (q, first))
    (htail : quoted? q (next :: others) = some (skip, pieces, after, rest)) :
    ∃ t' b, Scans ⟨true, false, tag⟩ after rest t' ∧ Binding.rawName b = a.name ∧
      Tiling.owners t.tiles =
        List.replicate pieces.length (.binding b) ++ Tiling.owners t'.tiles := by
  cases h with
  | text hout => rw [hadvance] at hout; cases hout
  | unquoted hin hfound' hquote' =>
    cases hfound.symm.trans hfound'
    cases hquote.symm.trans hquote'
  | quoted hin hfound' hquote' htail' hone h =>
    cases hfound.symm.trans hfound'
    cases hquote.symm.trans hquote'
    cases htail.symm.trans htail'
    rw [hadvance] at h
    exact ⟨_, _, h, rawName_bind .., Tiling.owners_cons ..⟩

end Template

namespace Draft

open ScanContext (Stands Passes)

variable {α : Type} {P Q : Text → Prop}

/-- The part takes the value of a hole that is there; the tag of a text has the property. -/
def Site.Matches (P : Text → Prop) (site : Site) (part : Part) : Prop :=
  match site with
  | .text | .comment => ∃ tag, part = .text tag ∧ P tag
  | .body => ∃ tag, part = .text tag
  | .value key => ∃ b, part = .binding b ∧ b.rawName = key

/-- Whatever the scanner makes of `pre` and the pieces behind it, its parts match the holes. -/
def Owned (P : Text → Prop) (cx : ScanContext) (pre : Text) (ps : List (Piece α))
    (sites : List Site) : Prop :=
  ∀ t, Template.Scans cx (pre ++ (Piece.cut ps).1) (Piece.cut ps).2 t →
    List.Forall₂ (Site.Matches P) sites (Tiling.owners t.tiles)

/-- The parts match the holes of the pieces when the scanner stands before them as `S` says. -/
def OwnedAt (P : Text → Prop) (S : ScanContext → Text → Text → Prop) (pre : Text)
    (ps : List (Piece α)) (sites : List Site) : Prop :=
  ∀ cx, S cx (pre ++ (Piece.cut ps).1) (Piece.cut ps).1 → Owned P cx pre ps sites

theorem OwnedAt.literal {S S' : ScanContext → Text → Text → Prop} {pre s : Text}
    {ps : List (Piece α)} {sites : List Site}
    (hstep : ∀ cx string, S cx string (s ++ (Piece.cut ps).1) → S' cx string (Piece.cut ps).1)
    (h : OwnedAt P S' (pre ++ s) ps sites) : OwnedAt P S pre (.literal s :: ps) sites := by
  intro cx hstands t ht
  rw [Piece.cut, ← List.append_assoc] at ht
  refine h cx ?_ t ht
  have hnext := hstep cx _ hstands
  rwa [Piece.cut, ← List.append_assoc] at hnext

/-- Without holes there are no parts. -/
theorem ownedAt_static (S : ScanContext → Text → Text → Prop) (pre s : Text) :
    OwnedAt P S pre ([.literal s] : List (Piece α)) [] := by
  intro cx _ t ht
  cases ht
  exact .nil

theorem ownedAt_nil (S : ScanContext → Text → Text → Prop) (pre : Text) :
    OwnedAt P S pre ([] : List (Piece α)) [] := by
  intro cx _ t ht
  cases ht
  exact .nil

/-- A hole that is not in a tag. -/
theorem OwnedAt.hole {p : Position} (hp : p ≠ .tag) {site : Site}
    (hsite : ∀ tag, Q tag → site.Matches P (.text tag)) {pre : Text} {a : α} {ps : List (Piece α)}
    {sites : List Site} (h : OwnedAt P (Stands Q p) [] ps sites) :
    OwnedAt P (Stands Q p) pre (.hole a :: ps) (site :: sites) := by
  intro cx hstands t ht
  rw [Piece.cut, List.append_nil] at hstands ht
  obtain ⟨tag, htag, hadvance⟩ := hstands.advance
  have hcontext : p.context tag = ⟨false, decide (p = .comment), tag⟩ := by
    rw [Position.context, decide_eq_false hp]
  rw [hcontext] at hadvance
  obtain ⟨t', ht', howners⟩ := ht.exists_text hadvance
  rw [← hcontext] at ht'
  rw [howners]
  exact .cons (hsite tag htag) (h _ (ScanContext.stands_start htag p _) t' ht')

/-- A run that is not in a tag: the literals before its holes leave the position, and the last one
leads from there to where the scanner goes on. -/
theorem OwnedAt.run {p : Position} (hp : p ≠ .tag) {site : Site}
    (hsite : ∀ tag, Q tag → site.Matches P (.text tag)) {S : ScanContext → Text → Text → Prop}
    {barred : Char → Bool} {run : Run α barred} {pre : Text} {ps : List (Piece α)}
    {sites : List Site}
    (hstep : ∀ s ∈ run.literals.dropLast, ∀ cx string, Stands Q p cx string s →
      Stands Q p cx string [])
    (hlast : ∀ cx string, Stands Q p cx string (run.last ++ (Piece.cut ps).1) →
      S cx string (Piece.cut ps).1)
    (h : OwnedAt P S (behind pre run.pieces) ps sites) :
    OwnedAt P (Stands Q p) pre (run.pieces ++ ps) (run.labels.map (fun _ => site) ++ sites) := by
  have hpieces : ∀ (tail : List (α × Text)) (head pre : Text),
      (∀ s ∈ (head :: tail.map Prod.snd).dropLast, ∀ cx string, Stands Q p cx string s →
        Stands Q p cx string []) →
      (∀ cx string, Stands Q p cx string
        ((head :: tail.map Prod.snd).getLast (List.cons_ne_nil _ _) ++ (Piece.cut ps).1) →
          S cx string (Piece.cut ps).1) →
      OwnedAt P S (behind pre (.literal head :: Run.tailPieces tail)) ps sites →
      OwnedAt P (Stands Q p) pre (.literal head :: (Run.tailPieces tail ++ ps))
        ((tail.map Prod.fst).map (fun _ => site) ++ sites) := by
    intro tail
    induction tail with
    | nil => exact fun head pre _ hlast h => .literal hlast h
    | cons q tail ih =>
      intro head pre hstep hlast h
      rw [List.map_cons, List.dropLast_cons_cons, List.forall_mem_cons] at hstep
      refine .literal (fun cx string hstands => ?_) (.hole hp hsite (ih q.2 [] hstep.2 hlast h))
      exact hstep.1 cx string (by simpa [Run.tailPieces, Piece.cut] using hstands)
  exact hpieces run.tail run.head pre hstep hlast h

/-! ## Attributes -/

open OpenAttribute (Closed isOpenValue)

/-- Behind a closed text an attribute is found with its name. -/
theorem Attribute.ofText?_head (a : Attribute α) {pre value : Text} (hlead : Closed pre)
    (hstops : Text.Stops Text.isSpace value) (hopen : isOpenValue value = true) :
    OpenAttribute.ofText? (pre ++ (a.head ++ value)) =
      some ⟨pre, a.leading, a.key, a.gap ++ '=' :: (a.gap' ++ value)⟩ := by
  have hhead : a.head ++ value = a.leading :: (a.key ++ (a.gap ++ '=' :: (a.gap' ++ value))) := by
    simp [Attribute.head]
  rw [hhead, OpenAttribute.ofText?_lead hlead a.leading_space a.isKey a.gap_space,
    OpenAttribute.ofText?_attribute a.leading_space a.isKey a.gap_space a.gap'_space hstops hopen]
  simp [OpenAttribute.behind]

/-- The value of the attribute that is found begins at its first quote. -/
theorem Attribute.quote?_suffix (a : Attribute α) (pre value : Text) :
    OpenAttribute.quote? ⟨pre, a.leading, a.key, a.gap ++ '=' :: (a.gap' ++ value)⟩ =
      OpenAttribute.quote? ⟨pre, a.leading, a.key, value⟩ :=
  OpenAttribute.quote?_gaps a.gap_space a.gap'_space pre value

/-- No bracket stands before the value. -/
theorem Attribute.head_plain (a : Attribute α) : ∀ c ∈ a.head, c ≠ '<' ∧ c ≠ '>' := by
  have hspace : ∀ {c}, Text.isSpace c = true → c ≠ '<' ∧ c ≠ '>' := by
    intro c hc
    constructor <;> rintro rfl <;> exact absurd hc (by decide)
  intro c hc
  rcases List.mem_cons.mp hc with rfl | hc
  · exact hspace a.leading_space
  rcases List.mem_append.mp hc with hc | hc
  · have hword := a.key_word c hc
    constructor <;> rintro rfl <;> exact absurd hword (by decide)
  rcases List.mem_append.mp hc with hc | hc
  · exact hspace (a.gap_space c hc)
  rcases List.mem_cons.mp hc with rfl | hc
  · decide
  · exact hspace (a.gap'_space c hc)

theorem plain_of_word {s : Text} (h : ∀ c ∈ s, AttributeToken.isWordChar c = true) :
    ∀ c ∈ s, c ≠ '<' ∧ c ≠ '>' := by
  intro c hc
  have hword := h c hc
  constructor <;> rintro rfl <;> exact absurd hword (by decide)

theorem stops_isSpace_of_word {s : Text} (h : ∀ c ∈ s, AttributeToken.isWordChar c = true) :
    Text.Stops Text.isSpace s := by
  intro c hc
  have hword := h c (List.mem_of_mem_head? hc)
  simp only [AttributeToken.isWordChar, Bool.not_eq_true', Bool.or_eq_false_iff] at hword
  exact hword.1.1.1.1.1.1

/-- A word is a value without quotes, as far as it goes. -/
theorem isOpenValue_of_word {s : Text} (h : ∀ c ∈ s, AttributeToken.isWordChar c = true) :
    isOpenValue s = true := by
  have hall : ∀ c ∈ s, OpenAttribute.isUnquotedChar c = true := by
    intro c hc
    have hword := h c hc
    simp only [AttributeToken.isWordChar, OpenAttribute.isUnquotedChar, Bool.not_eq_true',
      Bool.or_eq_false_iff] at hword ⊢
    tauto
  unfold isOpenValue
  split
  · exact absurd (h _ List.mem_cons_self) (by decide)
  · exact absurd (h _ List.mem_cons_self) (by decide)
  · exact List.all_eq_true.mpr hall

variable {pre : Text} {ps : List (Piece α)} {sites : List Site}

theorem isMarkChar_of_isSpace {c : Char} (h : Text.isSpace c = true) :
    Delimiter.isMarkChar c = false := by
  simp only [Text.isSpace, Bool.or_eq_true, decide_eq_true_eq] at h
  rcases h with (((rfl | rfl) | rfl) | rfl) | rfl <;> rfl

/-- The scanner stands in the tag up to the first hole of an attribute. -/
theorem Attribute.stands {s : Stretch} {a : Attribute α} {cx : ScanContext} {string r : Text}
    (h : Stands Q .tag cx string (s.text ++ (a.head ++ r))) (hopened : '>' ∉ s.text)
    (hnames : Delimiter.NamesIn Q s.text) : Stands Q .tag cx string r := by
  have hmark : Text.Stops Delimiter.isMarkChar (a.head ++ r) :=
    Text.stops_cons.mpr (isMarkChar_of_isSpace a.leading_space)
  exact (h.inside hnames s.uncommented hopened hmark).plain a.head_plain

/-- An attribute whose value is not quoted. -/
theorem OwnedAt.unquoted {s : Stretch} {a : Attribute α} {v : Unquoted α}
    (hvalue : a.value = .unquoted v) (hlead : Closed (pre ++ s.text)) (hopened : '>' ∉ s.text)
    (hnames : Delimiter.NamesIn Q s.text) (h : OwnedAt P (Stands Q .tag) v.right ps sites) :
    OwnedAt P (Stands Q .tag) pre (.literal s.text :: (a.pieces ++ ps))
      (.value a.key :: sites) := by
  intro cx hstands t ht
  have hpieces : a.pieces =
      [.literal a.head, .literal v.left, .hole v.label, .literal v.right] := by
    rw [Attribute.pieces, hvalue]
    rfl
  rw [hpieces] at hstands ht
  simp only [List.cons_append, List.nil_append, Piece.cut] at hstands ht
  have hend := (Attribute.stands hstands hopened hnames).plain (plain_of_word v.left_word)
  obtain ⟨tag, htag, hadvance⟩ := hend.advance
  have hfound := a.ofText?_head hlead (stops_isSpace_of_word v.left_word)
    (isOpenValue_of_word v.left_word)
  have hquote : OpenAttribute.quote? ⟨pre ++ s.text, a.leading, a.key,
      a.gap ++ '=' :: (a.gap' ++ v.left)⟩ = none := by
    rw [a.quote?_suffix, OpenAttribute.quote?]
    have hdrop : v.left.dropWhile (fun c => !(c = '"' || c = '\'')) = [] := by
      refine List.dropWhile_eq_nil_iff.mpr fun c hc => ?_
      have hword := v.left_word c hc
      by_cases hq : c = '"' ∨ c = '\''
      · rcases hq with rfl | rfl <;> exact absurd hword (by decide)
      · simpa using hq
    rw [hdrop]
  simp only [List.append_nil] at ht hadvance
  rw [List.append_assoc] at hfound
  obtain ⟨t', b, ht', hname, howners⟩ := ht.exists_unquoted hadvance hfound hquote
  rw [howners]
  refine .cons ⟨b, rfl, hname⟩ (h ⟨true, false, tag⟩ ?_ t' ht')
  exact (ScanContext.stands_start htag .tag _).plain (plain_of_word v.right_word)

theorem forall₂_replicate {β γ : Type} {R : β → γ → Prop} {b : β} {c : γ} (h : R b c) (n : Nat) :
    List.Forall₂ R (List.replicate n b) (List.replicate n c) := by
  induction n with
  | zero => exact .nil
  | succ n ih => exact .cons h ih

/-- An attribute whose value is quoted. -/
theorem OwnedAt.quoted {s : Stretch} {a : Attribute α} {v : Quoted α}
    (hvalue : a.value = .quoted v) (hlead : Closed (pre ++ s.text)) (hopened : '>' ∉ s.text)
    (hnames : Delimiter.NamesIn Q s.text) (hhead : Delimiter.NamesIn Q v.run.head)
    (h : OwnedAt P (Stands Q .tag) [] ps sites) :
    OwnedAt P (Stands Q .tag) pre (.literal s.text :: (a.pieces ++ ps))
      (v.run.labels.map (fun _ => .value a.key) ++ sites) := by
  intro cx hstands t ht
  have hpieces : a.pieces ++ ps = .literal a.head :: .literal [v.quote] :: .literal v.run.head ::
      (Run.tailPieces v.run.tail ++ .literal [v.quote] :: ps) := by
    rw [Attribute.pieces, hvalue, AttributeValue.pieces, Run.pieces]
    simp
  have hfree : ∀ p ∈ v.run.tail, v.quote ∉ p.2 := fun p hp hmem => by
    simpa using v.run.tail_plain p hp _ hmem
  have htail := Piece.quoted?_cut v.hole hfree ps
  -- the first fragment of the value ends at its first hole
  obtain ⟨next, others, hcut⟩ : ∃ next others,
      Piece.cut (Run.tailPieces v.run.tail ++ .literal [v.quote] :: ps) = ([], next :: others) := by
    cases htail : v.run.tail with
    | nil => exact absurd htail v.hole
    | cons p tail => exact ⟨_, _, rfl⟩
  rw [hpieces] at hstands ht
  rw [hcut] at htail
  simp only [Piece.cut, hcut, List.append_nil, List.cons_append, List.nil_append] at hstands ht
  have hquote :
      Stands Q .tag cx (pre ++ (s.text ++ (a.head ++ v.quote :: v.run.head))) v.run.head := by
    refine Stands.plain (s := [v.quote]) (Attribute.stands hstands hopened hnames) fun c hc => ?_
    have hq := v.isQuote
    rw [← List.mem_singleton.mp hc] at hq
    rcases hq with rfl | rfl <;> decide
  have hend := Stands.inside (r := []) (by rwa [List.append_nil]) hhead v.uncommented v.not_closed
    Text.stops_nil
  obtain ⟨tag, htag, hadvance⟩ := hend.advance
  have hfree' : v.quote ∉ v.run.head := fun hmem => by simpa using v.run.head_plain _ hmem
  have hfound := a.ofText?_head hlead (OpenAttribute.stops_isSpace_quoted v.isQuote)
    (OpenAttribute.isOpenValue_quoted v.isQuote hfree')
  have hopen := (a.quote?_suffix (pre ++ s.text) (v.quote :: v.run.head)).trans
    (OpenAttribute.quote?_quoted v.isQuote)
  rw [List.append_assoc] at hfound
  obtain ⟨t', b, ht', hname, howners⟩ := ht.exists_quoted hadvance hfound hopen htail
  rw [howners]
  refine List.rel_append ?_ (h ⟨true, false, tag⟩ (ScanContext.stands_start htag .tag _) t' ht')
  have hb : Site.Matches P (.value a.key) (.binding b) := ⟨b, rfl, hname⟩
  rw [List.map_const', List.length_map, Run.labels, List.length_map]
  exact forall₂_replicate hb _

/-- An attribute. -/
theorem OwnedAt.attribute {s : Stretch} {a : Attribute α} (hlead : Closed (pre ++ s.text))
    (hopened : '>' ∉ s.text) (hnames : Delimiter.NamesIn Q s.text)
    (hvalue : ∀ s ∈ a.value.statics, Delimiter.NamesIn Q s)
    (h : OwnedAt P (Stands Q .tag) a.value.behind ps sites) :
    OwnedAt P (Stands Q .tag) pre (.literal s.text :: (a.pieces ++ ps))
      (a.holes.map Prod.snd ++ sites) := by
  have hholes : a.holes.map Prod.snd = a.value.labels.map fun _ => .value a.key := by
    rw [Attribute.holes, List.map_map]
    rfl
  rw [hholes]
  cases hv : a.value with
  | unquoted v =>
    rw [hv] at h
    exact .unquoted hv hlead hopened hnames h
  | quoted v =>
    rw [hv] at h hvalue
    exact .quoted hv hlead hopened hnames (hvalue _ (List.mem_singleton_self _)) h

/-- The attributes with holes of a tag. -/
theorem OwnedAt.insides {insides : Insides α} (hleads : insides.LeadsClosed pre)
    (hopened : ∀ p ∈ insides, '>' ∉ p.1.text)
    (hnames : ∀ p ∈ insides, ∀ s ∈ p.1.text :: p.2.value.statics, Delimiter.NamesIn Q s)
    (h : OwnedAt P (Stands Q .tag) (insides.behind pre) ps sites) :
    OwnedAt P (Stands Q .tag) pre (insides.pieces ++ ps) (insides.holes.map Prod.snd ++ sites) := by
  induction insides generalizing pre with
  | nil => exact h
  | cons p insides ih =>
    rw [List.forall_mem_cons] at hopened hnames
    rw [Insides.pieces, Insides.holes, List.flatMap_cons, List.flatMap_cons, List.map_append,
      List.append_assoc, List.append_assoc, List.cons_append]
    exact .attribute hleads.1 hopened.1 (hnames.1 _ List.mem_cons_self)
      (fun s hs => hnames.1 s (List.mem_cons_of_mem _ hs)) (ih hleads.2 hopened.2 hnames.2 h)

/-! ## Tags -/

theorem Stretch.stops (s : Stretch) {r : Text} (hr : Text.Stops Delimiter.isMarkChar r) :
    Text.Stops Delimiter.isMarkChar (s.text ++ r) := by
  cases hs : s.text with
  | nil => exact hr
  | cons c t =>
    refine Text.stops_cons.mpr (isMarkChar_of_isSpace (s.spaced c ?_))
    rw [hs]
    rfl

theorem OpenTag.stops_close (t : OpenTag α) (r : Text) :
    Text.Stops Delimiter.isMarkChar ((if t.slash then ['/'] else []) ++ ['>'] ++ r) := by
  cases t.slash <;> exact Text.stops_cons.mpr rfl

/-- The name of a tag ends before its attributes. -/
theorem OpenTag.stops_insides (t : OpenTag α) (ps : List (Piece α)) :
    Text.Stops Delimiter.isMarkChar (Piece.cut (t.insides.pieces ++ .literal t.close :: ps)).1 := by
  cases t.insides with
  | nil =>
    rw [Insides.pieces, List.flatMap_nil, List.nil_append, Piece.cut, OpenTag.close,
      List.append_assoc]
    exact t.last.stops (t.stops_close _)
  | cons p insides =>
    rw [Insides.pieces, List.flatMap_cons, List.cons_append, List.cons_append, Piece.cut]
    exact p.1.stops (Text.stops_cons.mpr (isMarkChar_of_isSpace p.2.leading_space))

/-- An open tag, whatever was known before. -/
theorem OwnedAt.openTag {t : OpenTag α} (hleads : t.LeadsClosed pre)
    (hnames : ∀ s ∈ t.statics, Delimiter.NamesIn Q s)
    (h : OwnedAt P (Stands Q .text) (t.behind pre) ps sites) :
    OwnedAt P Passes pre (t.pieces ++ ps) (t.holes.map Prod.snd ++ sites) := by
  have hpieces : t.pieces ++ ps = .literal ('<' :: t.name) ::
      (t.insides.pieces ++ .literal t.close :: ps) := by
    rw [OpenTag.pieces]
    simp
  have hbrackets : '<' ∉ t.name ∧ '>' ∉ t.name := by
    constructor <;> intro hmem
    · exact (t.name_chars _ hmem).2.2 rfl
    · exact absurd (t.name_chars _ hmem).2.1 (by decide)
  rw [hpieces]
  refine .literal (fun cx string hpasses => hpasses.openTag t.name_start
    (hnames _ List.mem_cons_self) hbrackets (t.stops_insides ps)) ?_
  refine .insides hleads t.opened (fun p hp s hs => hnames s ?_) ?_
  · refine List.mem_cons_of_mem _ (List.mem_append_left _ (List.mem_flatMap.mpr ⟨p, hp, hs⟩))
  refine .literal (fun cx string hstands => ?_) h
  rw [OpenTag.close, List.append_assoc] at hstands
  have hlast := Stands.skip (b := true) hstands (hnames _ (by simp [OpenTag.statics]))
    t.last.uncommented (.inl (t.stops_close _))
  cases hslash : t.slash with
  | false =>
    rw [hslash] at hlast
    exact hlast.close
  | true =>
    rw [hslash] at hlast
    exact (Stands.skip (s := ['/']) hlast (Delimiter.namesIn_of_not_mem (by decide)) rfl
      (.inl (Text.stops_cons.mpr rfl))).close

/-! ## Texts, comments and bodies -/

theorem OwnedAt.text {run : Run α fun c => c = '<'} {site : Site}
    (hsite : ∀ tag, Q tag → site.Matches P (.text tag))
    (h : OwnedAt P (Stands Q .text) (behind pre run.pieces) ps sites) :
    OwnedAt P (Stands Q .text) pre (run.pieces ++ ps)
      (run.labels.map (fun _ => site) ++ sites) := by
  have hplain : ∀ s ∈ run.literals, '<' ∉ s := by
    intro s hs hmem
    rcases List.mem_cons.mp hs with rfl | hs
    · simpa using run.head_plain _ hmem
    · obtain ⟨p, hp, rfl⟩ := List.mem_map.mp hs
      simpa using run.tail_plain p hp _ hmem
  have hstep : ∀ s ∈ run.literals, ∀ cx string r, Stands Q .text cx string (s ++ r) →
      Stands Q .text cx string r := fun s hs cx string r hstands =>
    hstands.text (Delimiter.namesIn_of_not_mem (hplain s hs))
      (Delimiter.settled_of_not_mem (hplain s hs))
  refine .run (by decide) hsite (fun s hs cx string hstands => ?_) ?_ h
  · exact hstep s (List.dropLast_subset _ hs) cx string [] (by rwa [List.append_nil])
  · exact fun cx string => hstep run.last (List.getLast_mem _) cx string _

/-- A comment without its closing mark. -/
theorem OwnedAt.comment {inside : CommentRun α} {b : Bool} (hP : P [])
    (hnames : ∀ s ∈ inside.run.literals, Delimiter.NamesIn P s)
    (hps : Delimiter.KeepsComment (Piece.cut ps).1)
    (h : OwnedAt P (Stands P .comment) (behind pre inside.pieces) ps sites) :
    OwnedAt P (Stands P (.ofTag b)) pre (inside.pieces ++ ps)
      (inside.holes.map Prod.snd ++ sites) := by
  have hholes : inside.holes.map Prod.snd = inside.run.labels.map fun _ => .comment := by
    rw [CommentRun.holes, List.map_map]
    rfl
  have hsite : ∀ tag, P tag → Site.Matches P .comment (.text tag) := fun tag htag =>
    ⟨tag, rfl, htag⟩
  have hstep : ∀ s ∈ inside.run.literals, ∀ cx string r, Delimiter.KeepsComment r →
      Stands P .comment cx string (s ++ r) → Stands P .comment cx string r :=
    fun s hs cx string r hr hstands => hstands.comment (hnames s hs) (inside.not_closed s hs) hr
  rw [hholes]
  refine .literal (fun cx string hstands => hstands.openComment hP) ?_
  refine .run (by decide) hsite (fun s hs cx string hstands => ?_) ?_ h
  · exact hstep s (List.dropLast_subset _ hs) cx string [] (.inl rfl) (by rwa [List.append_nil])
  · exact fun cx string => hstep inside.run.last (List.getLast_mem _) cx string _ hps

/-- A script or style element without its close tag: the names in its tag and its body do not matter
to what comes behind. -/
theorem OwnedAt.opening {e : RawOpening α} {S : ScanContext → Text → Text → Prop}
    (hleads : e.openTag.LeadsClosed pre)
    (hlast : ∀ cx string, Stands (fun _ => True) .text cx string (e.body.last ++ (Piece.cut ps).1) →
      S cx string (Piece.cut ps).1)
    (h : OwnedAt P S (behind (e.openTag.behind pre) e.body.pieces) ps sites) :
    OwnedAt P Passes pre (e.pieces ++ ps) (e.holes.map Prod.snd ++ sites) := by
  have hholes : e.holes.map Prod.snd =
      e.openTag.holes.map Prod.snd ++ e.body.labels.map fun _ => .body := by
    rw [RawOpening.holes, List.map_append, List.map_map]
    rfl
  have hany : ∀ s, Delimiter.NamesIn (fun _ => True) s := fun _ _ _ _ _ _ => trivial
  have hsite : ∀ tag, True → Site.Matches P .body (.text tag) := fun tag _ => ⟨tag, rfl⟩
  rw [hholes, RawOpening.pieces, List.append_assoc, List.append_assoc]
  refine .openTag hleads (fun s _ => hany s) (.run (by decide) hsite ?_ hlast h)
  intro s hs cx string hstands
  exact Stands.text (by rwa [List.append_nil]) (hany s) (e.settled s hs)

/-! ## Blocks -/

/-- One block. What follows a block that leaves a `<` open makes no more of it. -/
theorem OwnedAt.block {b : Block α} {stray : Bool} (hP : P []) (hfits : b.Fits stray pre)
    (hnames : ∀ s ∈ b.statics, Delimiter.NamesIn P s)
    (hps : b.stray = true → Text.Stops Delimiter.isMarkChar (Piece.cut ps).1)
    (h : OwnedAt P (Stands P (.ofTag b.stray)) (b.behind pre) ps sites) :
    OwnedAt P (Stands P (.ofTag stray)) pre (b.pieces ++ ps) (b.holes.map Prod.snd ++ sites) := by
  have hpasses : ∀ {ps : List (Piece α)} {sites : List Site}, OwnedAt P Passes pre ps sites →
      OwnedAt P (Stands P (.ofTag stray)) pre ps sites :=
    fun h cx hstands => h cx hstands.passes
  have hnext : Text.Stops Delimiter.isMarkChar (Piece.cut ps).1 ∨ b.stray = false := by
    cases hstray : b.stray with
    | false => exact .inr rfl
    | true => exact .inl (hps hstray)
  cases b with
  | text run =>
    obtain rfl : stray = false := hfits
    have hholes : (Block.holes (.text run)).map Prod.snd = run.labels.map fun _ => .text := by
      rw [Block.holes, List.map_map]
      rfl
    rw [hholes]
    exact .text (fun tag htag => ⟨tag, rfl, htag⟩) h
  | static p =>
    obtain rfl : stray = false := hfits
    exact .literal (fun cx string hstands => hstands.skip (hnames _ (List.mem_singleton_self _))
      p.uncommented hnext) h
  | comment inside =>
    rw [Block.pieces, List.append_assoc]
    refine .comment hP hnames (.inr (List.prefix_append _ _)) ?_
    refine .literal (fun cx string hstands => hstands.closeComment) ?_
    have hbehind : Block.behind pre (.comment inside) =
        behind pre inside.pieces ++ Token.commentClose := behind_append pre inside.pieces _
    rwa [hbehind] at h
  | tag t not_raw => exact hpasses (.openTag hfits hnames h)
  | raw e =>
    obtain ⟨s, hclose⟩ := e.exists_close
    have hnames' := hnames _ (List.mem_singleton_self _)
    have huncommented := e.close.uncommented
    rw [Block.pieces, List.append_assoc]
    refine hpasses (.opening (S := Passes) hfits (fun cx string hstands => ?_) ?_)
    · refine (Stands.skip (b := false) hstands (fun _ _ _ _ _ => trivial) e.uncommented
        (.inl ?_)).passes
      rw [List.singleton_append, Piece.cut, hclose]
      exact Text.stops_cons.mpr rfl
    · rw [Block.behind, behind_append] at h
      refine .literal (fun cx string hpasses => ?_) h
      rw [hclose] at hnames' huncommented hpasses
      rw [Block.stray, Passage.stray, hclose] at hnext ⊢
      exact hpasses.closeTag hnames' huncommented hnext

/-- An ending. -/
theorem OwnedAt.ending {e : Ending α} {stray : Bool} (hP : P []) (hfits : e.Fits stray pre)
    (hnames : ∀ s ∈ e.statics, Delimiter.NamesIn P s) :
    OwnedAt P (Stands P (.ofTag stray)) pre e.pieces (e.holes.map Prod.snd) := by
  rw [← List.append_nil e.pieces, ← List.append_nil (e.holes.map Prod.snd)]
  cases e with
  | static s => exact ownedAt_static _ pre s
  | comment inside => exact .comment hP hnames (.inl rfl) (ownedAt_nil _ _)
  | raw e =>
    have hrest : OwnedAt P Passes pre (e.pieces ++ []) (e.holes.map Prod.snd ++ []) :=
      .opening (S := fun _ _ _ => True) hfits (fun _ _ _ => trivial) (ownedAt_nil _ _)
    exact fun cx hstands => hrest cx hstands.passes

/-- What follows an open `<` in a row is a comment or a tag. -/
theorem stops_of_row {ending : Ending α} {blocks : List (Block α)}
    (hrow : Row ending true pre blocks) :
    Text.Stops Delimiter.isMarkChar
      (Piece.cut (blocks.flatMap Block.pieces ++ ending.pieces)).1 := by
  cases blocks with
  | nil =>
    cases ending with
    | static s => cases hrow
    | comment inside => exact Text.stops_cons.mpr rfl
    | raw e => exact Text.stops_cons.mpr rfl
  | cons b blocks =>
    cases b with
    | text run => cases hrow.1
    | static p => cases hrow.1
    | comment inside => exact Text.stops_cons.mpr rfl
    | tag t not_raw => exact Text.stops_cons.mpr rfl
    | raw e => exact Text.stops_cons.mpr rfl

theorem OwnedAt.row {ending : Ending α} {stray : Bool} {blocks : List (Block α)} (hP : P [])
    (hrow : Row ending stray pre blocks)
    (hnames : ∀ s ∈ blocks.flatMap Block.statics ++ ending.statics, Delimiter.NamesIn P s) :
    OwnedAt P (Stands P (.ofTag stray)) pre (blocks.flatMap Block.pieces ++ ending.pieces)
      ((blocks.flatMap Block.holes ++ ending.holes).map Prod.snd) := by
  induction blocks generalizing stray pre with
  | nil => exact .ending hP hrow hnames
  | cons b blocks ih =>
    rw [List.flatMap_cons, List.append_assoc, List.forall_mem_append] at hnames
    rw [List.flatMap_cons, List.flatMap_cons, List.append_assoc, List.append_assoc, List.map_append]
    refine .block hP hrow.1 hnames.1 (fun hstray => ?_) (ih hrow.2 hnames.2)
    have hnext := hrow.2
    rw [hstray] at hnext
    exact stops_of_row hnext

/-- The parts of the template of a draft match its holes, one after the other. When all names that
its static texts mention have a property, so do the tags of the parts for texts and comments. -/
theorem matches_owners {d : Draft α} {t : Template} (hP : P [])
    (hnames : ∀ s ∈ d.statics, Delimiter.NamesIn P s)
    (ht : Template.ofFragments d.fragments = .ok t) :
    List.Forall₂ (Site.Matches P) (d.holes.map Prod.snd) t.owners :=
  OwnedAt.row hP d.row hnames (Position.context .text [])
    (ScanContext.stands_start hP .text _) t.tiling
    (Template.scans_of_ofFragments ht)

end Draft

end LiveMarkup
