import LiveMarkup.Resolve
import Mathlib.Algebra.GroupWithZero.Nat

/-!
# Tiles

The rows of a template hold its texts and parts place by place. A proof wants every part with the
text behind it, so that the part owns the values that it takes: these are the tiles, and a template
and its tiling tell the same (`Template.template_tiling`, `Tiling.tiling_template`). What the scan
makes of fragments is told tile by tile (`Template.Scans`), and it pushes the rows of a tiling
exactly when it gives that tiling (`scans_of_rowsFrom`, `Scans.rowsFrom_eq`). The writer, which
reads the rows place by place, takes the values of each part off the front of what is left
(`Value.templateText_ok`).
-/

namespace LiveMarkup

/-- Static text, and parts each with the text behind it. -/
structure Tiling where
  head : Text
  tiles : List (Part × Text)
  deriving DecidableEq, Repr

namespace Tiling

/-! ## Rows of a tiling -/

/-- The places of a tile: its part at the first, nothing at the others. -/
def partPlaces (p : Part) : List (Option Part) := some p :: List.replicate (p.segments - 1) none

/-- The texts behind the places of a tile: the text of the tile behind the last. -/
def stringPlaces (p : Part) (t : Text) : List (Option Text) :=
  List.replicate (p.segments - 1) none ++ [some t]

/-- The part of each placeholder, where one begins. -/
def parts (tiles : List (Part × Text)) : List (Option Part) :=
  tiles.flatMap fun tile => partPlaces tile.1

/-- The texts behind the placeholders; absent between placeholders of one part. -/
def behind (tiles : List (Part × Text)) : List (Option Text) :=
  tiles.flatMap fun tile => stringPlaces tile.1 tile.2

theorem behind_cons (p : Part) (text : Text) (tiles : List (Part × Text)) :
    behind ((p, text) :: tiles) =
      List.replicate (p.segments - 1) none ++ some text :: behind tiles := by
  rw [behind, List.flatMap_cons, stringPlaces, List.append_assoc]
  rfl

theorem laid (tiles : List (Part × Text)) : Laid (behind tiles) (parts tiles) := by
  induction tiles with
  | nil => exact .nil
  | cons tile tiles ih =>
    obtain ⟨p, text⟩ := tile
    have takes : p.segments = p.segments - 1 + 1 := (Nat.sub_add_cancel p.segments_pos).symm
    exact behind_cons p text tiles ▸ .part takes text ih

/-- The template with the tiles of a tiling. -/
def template (u : Tiling) : Template :=
  ⟨some u.head :: behind u.tiles, parts u.tiles, u.head, behind u.tiles, rfl, laid u.tiles⟩

theorem eq_template {t : Template} {u : Tiling} (texts : t.strings = some u.head :: behind u.tiles)
    (places : t.parts = parts u.tiles) : t = u.template := by
  cases t
  simp only [template, Template.mk.injEq]
  exact ⟨texts, places⟩

end Tiling

namespace Template

/-! ## Tiles of a template -/

/-- The text in front of all placeholders. -/
def head (t : Template) : Text := (t.strings.filterMap id).headD []

/-- The parts, each with the text behind its placeholders. -/
def tiles (t : Template) : List (Part × Text) :=
  (t.parts.filterMap id).zip (t.strings.filterMap id).tail

/-- The template as a tiling. -/
def tiling (t : Template) : Tiling := ⟨t.head, t.tiles⟩

end Template

namespace Laid

/-- Rows that are laid out are those of their tiles. -/
theorem rows_zip {strings : List (Option Text)} {parts : List (Option Part)}
    (h : Laid strings parts) :
    Tiling.behind ((parts.filterMap id).zip (strings.filterMap id)) = strings ∧
      Tiling.parts ((parts.filterMap id).zip (strings.filterMap id)) = parts := by
  induction h with
  | nil => exact ⟨rfl, rfl⟩
  | @part strings parts p skip takes text rest ih =>
    have places : p.segments - 1 = skip := by omega
    have zipped : ((some p :: (List.replicate skip none ++ parts)).filterMap id).zip
        ((List.replicate skip none ++ some text :: strings).filterMap id) =
          (p, text) :: (parts.filterMap id).zip (strings.filterMap id) := by
      simp [List.filterMap_append]
    rw [zipped, Tiling.behind_cons, ih.1, places]
    refine ⟨rfl, ?_⟩
    rw [Tiling.parts, List.flatMap_cons, ← Tiling.parts, ih.2, Tiling.partPlaces, places]
    rfl

end Laid

namespace Template

/-- The rows of a template are those of its tiles. -/
theorem rows_tiles (t : Template) :
    t.strings = some t.head :: Tiling.behind t.tiles ∧ t.parts = Tiling.parts t.tiles := by
  obtain ⟨head, behind, same, laid⟩ := t.laid
  have texts : t.strings.filterMap id = head :: behind.filterMap id := by rw [same]; rfl
  have first : t.head = head := by rw [Template.head, texts]; rfl
  have zipped : t.tiles = (t.parts.filterMap id).zip (behind.filterMap id) := by
    rw [tiles, texts]
    rfl
  rw [zipped, laid.rows_zip.1, laid.rows_zip.2, first]
  exact ⟨same, rfl⟩

/-- A template is that of its tiles. -/
theorem template_tiling (t : Template) : t.tiling.template = t :=
  (Tiling.eq_template t.rows_tiles.1 t.rows_tiles.2).symm

end Template

namespace Tiling

theorem filterMap_parts (tiles : List (Part × Text)) :
    (parts tiles).filterMap id = tiles.map Prod.fst := by
  induction tiles with
  | nil => rfl
  | cons tile tiles ih =>
    rw [parts, List.flatMap_cons, ← parts, List.filterMap_append, ih]
    simp [partPlaces]

theorem filterMap_behind (tiles : List (Part × Text)) :
    (behind tiles).filterMap id = tiles.map Prod.snd := by
  induction tiles with
  | nil => rfl
  | cons tile tiles ih =>
    rw [behind_cons, List.filterMap_append]
    simpa using ih

@[simp] theorem head_template (u : Tiling) : u.template.head = u.head := rfl

@[simp] theorem tiles_template (u : Tiling) : u.template.tiles = u.tiles := by
  have texts : u.template.strings.filterMap id = u.head :: u.tiles.map Prod.snd :=
    congrArg (u.head :: ·) (filterMap_behind u.tiles)
  rw [Template.tiles, texts, List.tail_cons, template, filterMap_parts]
  exact (List.zip_of_prod rfl rfl).symm

/-- A tiling is that of its template. -/
@[simp] theorem tiling_template (u : Tiling) : u.template.tiling = u := by
  rw [Template.tiling, head_template, tiles_template]

end Tiling

namespace Template

/-! ## Places of tiles -/

/-- How many values the tiles take. -/
def segments (tiles : List (Part × Text)) : Nat := (tiles.map fun tile => tile.1.segments).sum

theorem slotCount_eq (t : Template) : t.slotCount = segments t.tiles := by
  rw [slotCount, t.rows_tiles.2, Tiling.parts, segments, List.length_flatMap]
  refine congrArg List.sum (List.map_congr_left fun tile _ => ?_)
  have := tile.1.segments_pos
  simp only [Tiling.partPlaces, List.length_cons, List.length_replicate]
  omega

theorem segments_cons (p : Part) (behind : Text) (tiles : List (Part × Text)) :
    segments ((p, behind) :: tiles) = p.segments + segments tiles :=
  List.sum_cons

theorem segments_append (tiles rest : List (Part × Text)) :
    segments (tiles ++ rest) = segments tiles + segments rest := by
  rw [segments, List.map_append, List.sum_append]
  rfl

/-! ## The scan, tile by tile -/

/-- The rows of a tiling. -/
def rows (u : Tiling) : List (Option Text) × List (Option Part) :=
  (some u.head :: Tiling.behind u.tiles, Tiling.parts u.tiles)

theorem rows_cons {p : Part} {skip : Nat} (takes : p.segments = skip + 1) (first : Text)
    (u : Tiling) :
    rows ⟨first, (p, u.head) :: u.tiles⟩ =
      (some first :: (List.replicate skip none ++ (rows u).1),
        some p :: (List.replicate skip none ++ (rows u).2)) := by
  have places : p.segments - 1 = skip := by rw [takes, Nat.add_sub_cancel]
  rw [rows, Tiling.behind_cons, Tiling.parts, List.flatMap_cons, Tiling.partPlaces, places]
  rfl

theorem rows_single {p : Part} (takes : p.segments = 0 + 1) (first : Text) (u : Tiling) :
    rows ⟨first, (p, u.head) :: u.tiles⟩ = (some first :: (rows u).1, some p :: (rows u).2) :=
  rows_cons takes first u

/-- The scan of `string` and the fragments behind it, from the context `cx`, gives the tiling. -/
inductive Scans : ScanContext → Text → List Text → Tiling → Prop
  | last {cx string} : Scans cx string [] ⟨string, []⟩
  | text {cx string next others t} (hout : (cx.advance string).inTag = false)
      (h : Scans (cx.advance string) next others t) :
      Scans cx string (next :: others) ⟨string, (.text (cx.advance string).tag, t.head) :: t.tiles⟩
  | unquoted {cx string next others t a} (hin : (cx.advance string).inTag = true)
      (hfound : OpenAttribute.ofText? string = some a) (hquote : a.quote? = none)
      (h : Scans (cx.advance string) next others t) :
      Scans cx string (next :: others)
        ⟨a.before, (.binding (bind a (cx.advance string).tag [] [[]] Nat.one_pos),
          t.head) :: t.tiles⟩
  | quoted {cx string next others t a q first skip pieces after rest}
      (hin : (cx.advance string).inTag = true) (hfound : OpenAttribute.ofText? string = some a)
      (hquote : a.quote? = some (q, first))
      (htail : quoted? q (next :: others) = some (skip, pieces, after, rest))
      (hone : (BindingKind.ofName a.name).1 = .boolean → skip = 0)
      (h : Scans (cx.advance string) after rest t) :
      Scans cx string (next :: others)
        ⟨a.before, (.binding (bind a (cx.advance string).tag first pieces (pieces_pos htail)),
          t.head) :: t.tiles⟩

/-- What is pushed are the rows of tiles that the scan gives. -/
theorem scans_of_rowsFrom {cx : ScanContext} {index : Nat} {string : Text} {rest : List Text}
    {r : List (Option Text) × List (Option Part)} (h : rowsFrom cx index string rest = .ok r) :
    ∃ u, r = rows u ∧ Scans cx string rest u := by
  fun_induction rowsFrom cx index string rest generalizing r
  case case1 =>
    cases h
    exact ⟨_, rfl, .last⟩
  case case3 hin a hfound hquote ih =>
    obtain ⟨later, hlater, h⟩ := exists_of_bind_eq_ok h
    obtain ⟨u, rfl, hscans⟩ := ih hlater
    cases h
    exact ⟨_, (rows_single rfl a.before u).symm, .unquoted hin hfound hquote hscans⟩
  case case6 hin a hfound q first hquote skip pieces after rest htail b hboolean ih =>
    obtain ⟨later, hlater, h⟩ := exists_of_bind_eq_ok h
    obtain ⟨u, rfl, hscans⟩ := ih hlater
    cases h
    have htakes : Part.segments (.binding b) = skip + 1 := (length_quoted? htail).1
    have hone : (BindingKind.ofName a.name).1 = .boolean → skip = 0 := by
      intro hkind
      have hkind' : b.kind = .boolean := hkind
      simpa [hkind'] using hboolean
    exact ⟨_, (rows_cons htakes a.before u).symm, .quoted hin hfound hquote htail hone hscans⟩
  case case7 hout ih =>
    obtain ⟨later, hlater, h⟩ := exists_of_bind_eq_ok h
    obtain ⟨u, rfl, hscans⟩ := ih hlater
    cases h
    exact ⟨_, (rows_single rfl _ u).symm, .text (by simpa using hout) hscans⟩
  all_goals cases h

/-- The rows of tiles that the scan gives are pushed, whatever placeholder it starts at. -/
theorem Scans.rowsFrom_eq {cx : ScanContext} {string : Text} {rest : List Text} {u : Tiling}
    (h : Scans cx string rest u) (index : Nat) : rowsFrom cx index string rest = .ok (rows u) := by
  induction h generalizing index with
  | last => rw [rowsFrom]; rfl
  | text hout h ih =>
    rw [rowsFrom, if_neg (by simp [hout]), ih]
    rfl
  | @unquoted cx string next others u a hin hfound hquote h ih =>
    rw [rowsFrom, if_pos hin]
    simp only [hfound, hquote]
    rw [ih]
    rfl
  | @quoted cx string next others u a q first skip pieces after rest hin hfound hquote htail hone h
      ih =>
    have htakes := (length_quoted? htail).1
    rw [rowsFrom, if_pos hin]
    simp only [hfound, hquote]
    split
    · next hopen => rw [htail] at hopen; cases hopen
    · next hsame =>
      cases htail.symm.trans hsame
      rw [if_neg, ih]
      · exact congrArg Except.ok (rows_cons (p := .binding (bind ..)) htakes a.before u).symm
      · rw [Bool.and_eq_true, decide_eq_true_eq, decide_eq_true_eq]
        rintro ⟨hkind, hskip⟩
        exact Nat.ne_of_gt hskip (hone hkind)

/-- The scan of fragments gives the tiling of their template. -/
theorem scans_of_ofFragments {first : Text} {rest : List Text} {t : Template}
    (h : ofFragments (first :: rest) = .ok t) : Scans {} first rest t.tiling := by
  have scanned := rowsFrom_eq first rest
  rw [h] at scanned
  obtain ⟨u, same, scans⟩ := scans_of_rowsFrom scanned
  obtain ⟨texts, places⟩ := Prod.mk.inj same
  rw [Tiling.eq_template texts places, Tiling.tiling_template]
  exact scans

/-- The fragments make the template of the tiling that the scan of them gives. -/
theorem Scans.ofFragments_eq {first : Text} {rest : List Text} {u : Tiling}
    (h : Scans {} first rest u) : ofFragments (first :: rest) = .ok u.template := by
  have same := (Template.rowsFrom_eq first rest).symm.trans (h.rowsFrom_eq 0)
  cases made : ofFragments (first :: rest) with
  | error e => rw [made] at same; cases same
  | ok t =>
    rw [made] at same
    obtain ⟨texts, places⟩ := Prod.mk.inj (Except.ok.inj same)
    rw [Tiling.eq_template texts places]

end Template

namespace Value

/-! ## The writer, tile by tile -/

/-- The markup of tiles, each of which takes its values off the front; `taken` of `total` values
have been taken before. -/
def tilesText (config : Config) (total : Nat) :
    (taken : Nat) → List (Part × Text) → List Slot → Except ResolveError Text
  | _, [], _ => .ok []
  | taken, (part, behind) :: tiles, slots =>
    if slots.length < part.segments then .error (.valueCount (taken + part.segments) total)
    else do
      let text ← partText config part (slots.take part.segments)
      let rest ← tilesText config total (taken + part.segments) tiles (slots.drop part.segments)
      return text ++ (behind ++ rest)

theorem placeText_of_drop {strings behind : List (Option Text)} {place : Option Text} {index : Nat}
    (row : strings.drop index = place :: behind) : placeText strings index = place.getD [] := by
  rw [placeText, ← List.head?_drop, row]
  rfl

/-- The empty places of a part write nothing, and the text behind them is written once. -/
theorem partsText_places (config : Config) (slots : List Slot) (parts : List (Option Part))
    {strings behind : List (Option Text)} {text : Text} {index skip : Nat}
    (row : strings.drop index = List.replicate skip none ++ some text :: behind) :
    (partsText config strings slots index (List.replicate skip none ++ parts)).map
        (placeText strings index ++ ·) =
      (partsText config strings slots (index + skip) parts).map (text ++ ·) := by
  induction skip generalizing index with
  | zero =>
    rw [placeText_of_drop row]
    rfl
  | succ skip ih =>
    have later : strings.drop (index + 1) = List.replicate skip none ++ some text :: behind := by
      rw [← List.tail_drop, row]
      rfl
    rw [placeText_of_drop row, List.replicate_succ, List.cons_append, partsText,
      Nat.add_comm skip, ← Nat.add_assoc, ← ih later]
    cases partsText config strings slots (index + 1) (List.replicate skip none ++ parts) <;> rfl

/-- What is written of rows from a place on is written of their tiles from the values left there. -/
theorem partsText_parts (config : Config) (slots : List Slot) {strings : List (Option Text)}
    {index : Nat} {tiles : List (Part × Text)}
    (row : strings.drop (index + 1) = Tiling.behind tiles) :
    partsText config strings slots index (Tiling.parts tiles) =
      tilesText config slots.length index tiles (slots.drop index) := by
  induction tiles generalizing index with
  | nil => rfl
  | cons tile tiles ih =>
    obtain ⟨part, text⟩ := tile
    obtain ⟨skip, takes⟩ := Nat.exists_eq_add_one.mpr part.segments_pos
    rw [Tiling.behind_cons, takes, Nat.add_sub_cancel] at row
    have later : strings.drop (index + (skip + 1) + 1) = Tiling.behind tiles := by
      rw [show index + (skip + 1) + 1 = index + 1 + (skip + 1) by omega, ← List.drop_drop, row,
        List.drop_append]
      simp
    have places := partsText_places config slots (Tiling.parts tiles) row
    rw [Tiling.parts, List.flatMap_cons, Tiling.partPlaces, takes, Nat.add_sub_cancel,
      List.cons_append, partsText, tilesText, takes, List.length_drop]
    by_cases short : slots.length < index + (skip + 1)
    · rw [if_pos short, if_pos (by omega)]
    · rw [if_neg short, if_neg (by omega)]
      cases partText config part ((slots.drop index).take (skip + 1)) with
      | error e => rfl
      | ok markup =>
        rw [Nat.add_assoc, Nat.add_comm 1, ih later] at places
        have behind (x : Except ResolveError Text) (t : Text) :
            (do let rest ← x; return markup ++ (t ++ rest)) =
              (x.map (t ++ ·)).map (markup ++ ·) := by
          cases x <;> rfl
        rw [List.drop_drop]
        exact (behind ..).trans ((congrArg _ places).trans (behind ..).symm)

/-- The markup of a template is that of its tiles. -/
theorem templateText_ok (config : Config) (t : Template) (slots : List Slot) :
    templateText config (.ok t) slots =
      if slots.length ≠ t.slotCount then .error (.valueCount t.slotCount slots.length)
      else (tilesText config slots.length 0 t.tiles slots).map (t.head ++ ·) := by
  obtain ⟨strings, parts⟩ := t.rows_tiles
  have row : t.strings.drop 0 = some t.head :: Tiling.behind t.tiles := strings
  have tail : t.strings.drop 1 = Tiling.behind t.tiles := by rw [strings]; rfl
  rw [templateText, parts, partsText_parts config slots tail, placeText_of_drop row]
  rfl

end Value

end LiveMarkup
