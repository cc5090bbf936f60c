import LiveMarkup.Proofs.Template.Bindings
import Mathlib.Algebra.GroupWithZero.Nat

/-!
# What fragments are spelled with

A template is written out again by spelling its attributes between its static texts, each with its
literals in quotes or without. Scanned fragments are always the template spelled in some way
(`exists_spelled`), but not quite from the template alone: what stands before the placeholder of a
value without quotes is in no literal, and a spelling has to supply it as `lost`. Every other
character of the fragments is a space or a quote of a spelling or stands in the template, so counting
them tells that nothing else can make up for a lost text, and `fragments_kept` says that the
fragments are in the template exactly when no text is lost.
-/

namespace LiveMarkup

/-! ## Spelling a template -/

/-- How an attribute with placeholders is written around its literals. -/
structure Spelling where
  /-- The spaces before the equals sign. -/
  gap : Text
  /-- The spaces behind it. -/
  gap' : Text
  /-- The quote around the value. -/
  quote : Option Char
  /-- What stands before the placeholder of a value without quotes. -/
  lost : Text
  gap_space : ∀ c ∈ gap, Text.isSpace c = true
  gap'_space : ∀ c ∈ gap', Text.isSpace c = true
  isQuote : ∀ q ∈ quote, q = '"' ∨ q = '\''
  lost_unquoted : ∀ c ∈ lost, OpenAttribute.isUnquotedChar c = true
  lost_eq_nil : quote.isSome = true → lost = []

/-- The binding as it is written in the fragments. -/
def Binding.spelled (b : Binding) (s : Spelling) : Text :=
  b.leading :: (b.kind.sigil ++ (b.name ++ (s.gap ++ '=' :: (s.gap' ++ (s.lost ++
    (s.quote.toList ++ (b.literals.flatten ++ s.quote.toList)))))))

namespace Template

/-- The tiles are written with a spelling for each binding; a text is a placeholder and nothing
else. -/
inductive Spells : List (Part × Text) → List Spelling → Text → Prop
  | nil : Spells [] [] []
  | text {tag behind rest : Text} {tiles : List (Part × Text)} {spellings : List Spelling}
    (h : Spells tiles spellings rest) :
    Spells ((.text tag, behind) :: tiles) spellings (behind ++ rest)
  | binding {b : Binding} {behind rest : Text} {tiles : List (Part × Text)} {s : Spelling}
    {spellings : List Spelling} (h : Spells tiles spellings rest) :
    Spells ((.binding b, behind) :: tiles) (s :: spellings) (b.spelled s ++ (behind ++ rest))

/-- The template is written as `source`. -/
def Spelled (t : Template) (spellings : List Spelling) (source : Text) : Prop :=
  ∃ rest, Spells t.tiles spellings rest ∧ source = t.head ++ rest

/-- The template is written as `source` with all its texts its own. -/
def Keeps (t : Template) (source : Text) : Prop :=
  ∃ spellings, (∀ s ∈ spellings, s.lost = []) ∧ t.Spelled spellings source

end Template

/-! ## Fragments are spelled -/

namespace Template

variable {cx : ScanContext} {string : Text} {rest : List Text} {t : Tiling}

/-- A quoted value is its pieces up to the closing quote. -/
theorem flatten_of_quoted? {q : Char} {fs pieces rest : List Text} {skip : Nat} {after : Text}
    (h : quoted? q fs = some (skip, pieces, after, rest)) :
    fs.flatten = pieces.flatten ++ q :: (after ++ rest.flatten) := by
  induction fs generalizing skip pieces with
  | nil => cases h
  | cons f fs ih =>
    rw [quoted?] at h
    split at h
    · next piece after' hcut =>
      cases h
      rw [List.flatten_cons, Text.eq_append_of_cutAt? hcut]
      simp
    · obtain ⟨⟨skip', pieces', after', rest'⟩, hp, heq⟩ := Option.map_eq_some_iff.mp h
      cases heq
      rw [List.flatten_cons, ih hp, List.flatten_cons, List.append_assoc]

/-- The attribute that a string ends in, as the binding that is made of it is written. -/
theorem spelled_bind (a : OpenAttribute) (tag first : Text) (literals : List Text)
    (h : 0 < literals.length) (s : Spelling) : (bind a tag first literals h).spelled s =
      a.leading :: (a.name ++ (s.gap ++ '=' :: (s.gap' ++ (s.lost ++
        (s.quote.toList ++ (first ++ (literals.flatten ++ s.quote.toList))))))) := by
  have hname : (bind a tag first literals h).kind.sigil ++ (bind a tag first literals h).name =
      a.name := BindingKind.sigil_append_ofName a.name
  rw [Binding.spelled, ← List.append_assoc _ (bind a tag first literals h).name, hname]
  simp [bind]

/-- What is scanned is written as the template that comes of it. -/
theorem Scans.exists_spelled (h : Scans cx string rest t) :
    ∃ spellings written, Spells t.tiles spellings written ∧
      string ++ rest.flatten = t.head ++ written := by
  induction h with
  | last => exact ⟨[], [], .nil, rfl⟩
  | @text cx string next others t hout h ih =>
    obtain ⟨spellings, rest, hspells, hsource⟩ := ih
    refine ⟨spellings, _, .text hspells, ?_⟩
    rw [List.flatten_cons, hsource]
  | @unquoted cx string next others t a hin hfound hquote h ih =>
    obtain ⟨spellings, rest, hspells, hsource⟩ := ih
    have hstring := (OpenAttribute.eq_append_of_ofText? hfound).1
    obtain ⟨gap, gap', value, hsuffix, hgap, hgap', hvalue⟩ := OpenAttribute.exists_suffix hfound
    rcases hvalue with ⟨q, first, -, -, hsome⟩ | ⟨hunquoted, -⟩
    · rw [hquote] at hsome
      cases hsome
    let s : Spelling :=
      { gap, gap', quote := none, lost := value, gap_space := hgap, gap'_space := hgap',
        isQuote := nofun, lost_unquoted := hunquoted, lost_eq_nil := nofun }
    refine ⟨s :: spellings, _, .binding hspells, ?_⟩
    rw [List.flatten_cons, hsource, spelled_bind, hstring, hsuffix]
    simp [s]
  | @quoted cx string next others t a q first skip pieces after rest hin hfound hquote htail hone h
      ih =>
    obtain ⟨spellings, rest, hspells, hsource⟩ := ih
    have hstring := (OpenAttribute.eq_append_of_ofText? hfound).1
    obtain ⟨gap, gap', value, hsuffix, hgap, hgap', hvalue⟩ := OpenAttribute.exists_suffix hfound
    rcases hvalue with ⟨q', first', rfl, hq, hsome⟩ | ⟨-, hnone⟩
    · rw [hquote] at hsome
      cases hsome
      let s : Spelling :=
        { gap, gap', quote := some q, lost := [], gap_space := hgap, gap'_space := hgap',
          isQuote := fun _ h => Option.mem_some.mp h ▸ hq, lost_unquoted := nofun
          lost_eq_nil := fun _ => rfl }
      refine ⟨s :: spellings, _, .binding hspells, ?_⟩
      rw [flatten_of_quoted? htail, hsource, spelled_bind, hstring, hsuffix]
      simp [s]
    · rw [hquote] at hnone
      cases hnone

end Template

/-! ## Counting characters -/

/-- The character is no space and no quote. -/
def Spelling.isSolid (c : Char) : Bool := !(Text.isSpace c || c = '"' || c = '\'')

namespace Spelling

theorem countP_spaces {t : Text} (h : ∀ c ∈ t, Text.isSpace c = true) : t.countP isSolid = 0 := by
  refine List.countP_eq_zero.mpr fun c hc => ?_
  simp [isSolid, h c hc]

theorem countP_quote (s : Spelling) : s.quote.toList.countP isSolid = 0 := by
  refine List.countP_eq_zero.mpr fun c hc => ?_
  rcases s.isQuote c (Option.mem_toList.mp hc) with rfl | rfl <;> decide

theorem countP_lost (s : Spelling) : s.lost.countP isSolid = s.lost.length := by
  refine List.countP_eq_length.mpr fun c hc => ?_
  have hchar := s.lost_unquoted c hc
  simp only [OpenAttribute.isUnquotedChar, Bool.not_eq_true', Bool.or_eq_false_iff] at hchar
  simp [isSolid, hchar]

/-- The lengths of all that is lost. -/
def lostLength (spellings : List Spelling) : Nat := (spellings.map fun s => s.lost.length).sum

theorem lostLength_eq_zero_iff {spellings : List Spelling} :
    lostLength spellings = 0 ↔ ∀ s ∈ spellings, s.lost = [] := by
  simp [lostLength, List.sum_eq_zero_iff_forall_eq_nat]

end Spelling

/-- Two spellings of a binding differ in spaces, quotes and what is lost. -/
theorem Binding.countP_spelled (b : Binding) (s s' : Spelling) :
    (b.spelled s).countP Spelling.isSolid + s'.lost.length =
      (b.spelled s').countP Spelling.isSolid + s.lost.length := by
  simp only [spelled, List.countP_cons, List.countP_append, Spelling.countP_spaces s.gap_space,
    Spelling.countP_spaces s.gap'_space, Spelling.countP_spaces s'.gap_space,
    Spelling.countP_spaces s'.gap'_space, Spelling.countP_quote, Spelling.countP_lost]
  omega

namespace Template

variable {tiles : List (Part × Text)} {spellings spellings' : List Spelling} {source source' : Text}
  {t : Template}

/-- Two ways to write tiles differ in spaces, quotes and what is lost. -/
theorem Spells.countP_add (h : Spells tiles spellings source)
    (h' : Spells tiles spellings' source') :
    source.countP Spelling.isSolid + Spelling.lostLength spellings' =
      source'.countP Spelling.isSolid + Spelling.lostLength spellings := by
  induction h generalizing spellings' source' with
  | nil =>
    cases h'
    rfl
  | text h ih =>
    cases h' with
    | text h' =>
      have hrest := ih h'
      simp only [List.countP_append]
      omega
  | @binding b behind rest tiles s spellings h ih =>
    cases h' with
    | @binding _ _ rest' _ s' spellings' h' =>
      have hfirst := b.countP_spelled s s'
      have hrest := ih h'
      simp only [Spelling.lostLength, List.map_cons, List.sum_cons, List.countP_append] at hrest ⊢
      omega

/-- As much is lost in whatever way a template is written as the same text. -/
theorem Spelled.lostLength_eq (h : t.Spelled spellings source) (h' : t.Spelled spellings' source) :
    Spelling.lostLength spellings = Spelling.lostLength spellings' := by
  obtain ⟨rest, hspells, rfl⟩ := h
  obtain ⟨rest', hspells', hsource⟩ := h'
  obtain rfl := List.append_cancel_left hsource
  exact (Nat.add_left_cancel (hspells.countP_add hspells')).symm

/-! ## What is kept -/

/-- The fragments of an accepted template can be written from it with the beginnings of values
without quotes that stand before their placeholders, and from the template alone exactly when there
are no such beginnings. -/
theorem fragments_kept {fragments : List Text} (ht : ofFragments fragments = .ok t) :
    (∃ spellings, t.Spelled spellings fragments.flatten) ∧
      ∀ spellings, t.Spelled spellings fragments.flatten →
        (t.Keeps fragments.flatten ↔ ∀ s ∈ spellings, s.lost = []) := by
  refine ⟨?_, fun spellings hspelled => ⟨?_, fun hlost => ⟨spellings, hlost, hspelled⟩⟩⟩
  · cases fragments with
    | nil =>
      cases ht
      exact ⟨[], [], .nil, rfl⟩
    | cons first rest => exact (scans_of_ofFragments ht).exists_spelled
  · rintro ⟨kept, hkept, hspelled'⟩
    rw [← Spelling.lostLength_eq_zero_iff] at hkept ⊢
    rw [hspelled.lostLength_eq hspelled', hkept]

/-- The binding of `href` in a link; like that of `hidden` it is to one value without literals. -/
def linkTarget : Binding :=
  { hiddenFlag with kind := .attribute, name := "href".toList, tag := ['a'] }

/-- A link with spaces around an equals sign, a title in single quotes and a text. -/
def titledLink : Template := Tiling.template {
  head := "<a".toList
  tiles := [
    (.binding linkTarget, []),
    (.binding
      { kind := .property
        name := "title".toList
        literals := ["x ".toList, ['-'], " y".toList]
        tag := ['a']
        leading := '\n' }, ['>']),
    (.text ['a'], "</a>".toList)] }

/-- A value without quotes behind `gap'` and the text `lost`. -/
def unquotedSpelling (gap lost : Text) (hgap : ∀ c ∈ gap, Text.isSpace c = true)
    (hlost : ∀ c ∈ lost, OpenAttribute.isUnquotedChar c = true) : Spelling where
  gap := gap
  gap' := gap
  quote := none
  lost := lost
  gap_space := hgap
  gap'_space := hgap
  isQuote := nofun
  lost_unquoted := hlost
  lost_eq_nil := nofun

/-- A value in single quotes. -/
def singleQuotes : Spelling where
  gap := []
  gap' := []
  quote := some '\''
  lost := []
  gap_space := nofun
  gap'_space := nofun
  isQuote := fun _ h => .inr (Option.mem_some.mp h).symm
  lost_unquoted := nofun
  lost_eq_nil := fun _ => rfl

theorem fragments_kept_titledLink :
    ofFragments ["<a href = ".toList, "\n.title='x ".toList, ['-'], " y'>".toList,
        "</a>".toList] = .ok titledLink ∧
      titledLink.Keeps "<a href = \n.title='x - y'></a>".toList := by
  have ht : ofFragments ["<a href = ".toList, "\n.title='x ".toList, ['-'], " y'>".toList,
      "</a>".toList] = .ok titledLink := ofFragments_eq_ok (by decide +kernel)
  have hspelled : titledLink.Spelled
      [unquotedSpelling [' '] [] (List.all_eq_true.mp rfl) nofun, singleQuotes]
      "<a href = \n.title='x - y'></a>".toList :=
    ⟨_, .binding (.binding (.text .nil)), rfl⟩
  refine ⟨ht, ((fragments_kept ht).2 _ hspelled).mpr ?_⟩
  rintro s (_ | ⟨_, _ | ⟨_, ⟨⟩⟩⟩) <;> rfl

/-- A link to an item, with a place for its number. -/
def itemLink : Template := Tiling.template {
  head := "<a".toList
  tiles := [(.binding linkTarget, ">x</a>".toList)] }

/-- The path before the number of the item is not in the template. -/
theorem not_fragments_kept : ¬∀ (fragments : List Text) (t : Template),
    ofFragments fragments = .ok t → t.Keeps fragments.flatten := by
  intro h
  have ht : ofFragments ["<a href=/item/".toList, ">x</a>".toList] = .ok itemLink :=
    ofFragments_eq_ok (by decide +kernel)
  obtain ⟨kept, hkept, hspelled⟩ := h _ _ ht
  have hwritten : itemLink.Spelled
      [unquotedSpelling [] "/item/".toList nofun (List.all_eq_true.mp rfl)]
      "<a href=/item/>x</a>".toList := ⟨_, .binding .nil, rfl⟩
  have hlength := hspelled.lostLength_eq hwritten
  rw [Spelling.lostLength_eq_zero_iff.mpr hkept] at hlength
  cases hlength

end Template

end LiveMarkup
