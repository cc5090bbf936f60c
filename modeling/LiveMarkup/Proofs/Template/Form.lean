import LiveMarkup.Proofs.Escape.Bodies
import LiveMarkup.Proofs.Template.Bindings

/-!
# Forms

What a template writes for strings is static text with blanks: a blank takes the entities of a
string, or holds a boolean attribute that is there or not. Static texts with nothing variable
between them are one text in a form, so that it shows what stands directly before and behind each
blank. `resolve_strings` says that to resolve the template is to fill in its form.
-/

namespace LiveMarkup

/-- A place in a page whose text depends on the string of a slot. -/
inductive Blank where
  /-- The string with entities. -/
  | value (slot : Nat)
  /-- Markup that is there unless the string is empty. -/
  | option (slot : Nat) (markup : Text)
  deriving DecidableEq, Repr

/-- The text of a blank. -/
def Blank.fill (strings : List Text) : Blank → Text
  | .value slot => Text.escapeEntities (strings.getD slot [])
  | .option slot markup => if (strings.getD slot []).isEmpty then [] else markup

/-- Static text, and blanks each with the static text behind it. -/
structure Form where
  head : Text
  blanks : List (Blank × Text)
  deriving DecidableEq, Repr

namespace Form

/-- The text of blanks and of what stands behind each. -/
def fillBlanks (strings : List Text) (blanks : List (Blank × Text)) : Text :=
  blanks.flatMap fun b => b.1.fill strings ++ b.2

/-- The static text of blanks. -/
def statics (blanks : List (Blank × Text)) : Text := blanks.flatMap Prod.snd

/-- The page that a form becomes. -/
def fill (strings : List Text) (f : Form) : Text := f.head ++ fillBlanks strings f.blanks

/-- Static text before a form. -/
def put (t : Text) (f : Form) : Form := ⟨t ++ f.head, f.blanks⟩

/-- A blank before a form. -/
def leave (b : Blank) (f : Form) : Form := ⟨[], (b, f.head) :: f.blanks⟩

/-- Literals before a form, with blanks between them for the slots from `slot` on. -/
def literals (slot : Nat) : List Text → Form → Form
  | [], f => f
  | [literal], f => f.put literal
  | literal :: more, f => ((literals (slot + 1) more f).leave (.value slot)).put literal

/-- An attribute before a form; its values begin with that of `slot`. -/
def written (slot : Nat) (b : Binding) (f : Form) : Form :=
  (literals slot b.literals (f.put ['"'])).put
    (b.leading :: (b.kind.sigil ++ (b.name ++ ['=', '"'])))

/-- A part before a form; its values begin with that of `slot`. -/
def part (config : Config) (slot : Nat) (p : Part) (f : Form) : Form :=
  match p with
  | .text _ => f.leave (.value slot)
  | .binding b =>
    match b.kind with
    | .attribute => f.written slot b
    | .property => if config.serializeProperties then f.written slot b else f
    | .event => f
    | .boolean => f.leave (.option slot (b.leading :: b.name))

/-- The form of tiles whose values begin with that of `slot`. -/
def ofTiles (config : Config) (slot : Nat) : List (Part × Text) → Form
  | [] => ⟨[], []⟩
  | (p, behind) :: tiles => ((ofTiles config (slot + p.segments) tiles).put behind).part config slot p

variable {strings mine others : List Text} {f : Form} {slot : Nat}

theorem fillBlanks_append (near far : List (Blank × Text)) :
    fillBlanks strings (near ++ far) = fillBlanks strings near ++ fillBlanks strings far :=
  List.flatMap_append

/-! ## Filling in -/

@[simp] theorem fill_put (t : Text) : (f.put t).fill strings = t ++ f.fill strings :=
  List.append_assoc ..

@[simp] theorem fill_leave (b : Blank) :
    (f.leave b).fill strings = b.fill strings ++ f.fill strings :=
  List.append_assoc ..

theorem fill_value {s : Text} (h : strings.drop slot = s :: mine) :
    (Blank.value slot).fill strings = Text.escapeEntities s := by
  rw [Blank.fill, List.getD_eq_getElem?_getD, ← List.head?_drop, h]
  rfl

theorem fill_option {s markup : Text} (h : strings.drop slot = s :: mine) :
    (Blank.option slot markup).fill strings = if s.isEmpty then [] else markup := by
  rw [Blank.fill, List.getD_eq_getElem?_getD, ← List.head?_drop, h]
  rfl

theorem drop_add {n : Nat} (h : strings.drop slot = mine ++ others) (hn : mine.length = n) :
    strings.drop (slot + n) = others := by
  rw [← List.drop_drop, h, ← hn, List.drop_left]

/-- Between literals stand the strings of the slots. -/
theorem fill_literals {texts : List Text} (h : strings.drop slot = mine ++ others)
    (hlength : texts.length = mine.length + 1) :
    (literals slot texts f).fill strings =
      Text.interleave texts (mine.map Text.escapeEntities) ++ f.fill strings := by
  induction texts generalizing slot mine with
  | nil => cases hlength
  | cons text texts ih =>
    cases mine with
    | nil =>
      obtain rfl : texts = [] := by simpa using hlength
      exact fill_put text
    | cons s mine =>
      obtain ⟨next, more, rfl⟩ := List.exists_cons_of_length_pos
        (show 0 < texts.length by simp only [List.length_cons] at hlength; omega)
      have hdrop : strings.drop (slot + 1) = mine ++ others := by
        rw [← List.drop_drop, h]
        rfl
      have hrest := ih hdrop (Nat.succ.inj hlength)
      rw [literals.eq_3 _ _ _ _ (by simp), fill_put, fill_leave, fill_value h, hrest]
      simp [Text.interleave]

theorem fill_written {b : Binding} (h : strings.drop slot = mine ++ others)
    (hlength : b.literals.length = mine.length + 1) :
    (f.written slot b).fill strings =
      Value.attributeMarkup b (Text.interleave b.literals (mine.map Text.escapeEntities)) ++
        f.fill strings := by
  rw [written, fill_put, fill_literals h hlength, fill_put]
  simp [Value.attributeMarkup]

end Form

/-! ## Parts -/

namespace Part

/-- The part is no text in a script or style element. -/
def isEscaped : Part → Prop
  | .text tag => EscapeContext.forTextIn tag = .text
  | .binding _ => True

end Part

namespace Value

variable {strings mine others : List Text} {slot : Nat}

/-- A string adds itself, with entities, to a text. -/
theorem partText_text_string (config : Config) {tag : Text}
    (htag : EscapeContext.forTextIn tag = .text) (s : Text) :
    partText config (.text tag) (slotsOf config [.string s]) = .ok (Text.escapeEntities s) := by
  simp [partText, slotsOf, nodeText, htag, Text.escape, bind, Except.bind, pure, Except.pure,
    Except.map]

theorem map_value_slotsOf (config : Config) (vs : List Value) :
    (slotsOf config vs).map Slot.value = vs := by
  induction vs with
  | nil => rfl
  | cons v vs ih => rw [slotsOf, List.map_cons, ih]

/-- What is written for a part with strings is what it adds to the form. -/
theorem partText_string (config : Config) {p : Part} (f : Form) (hescaped : p.isEscaped)
    (h : strings.drop slot = mine ++ others) (hlength : mine.length = p.segments) :
    ∃ text, partText config p (slotsOf config (mine.map .string)) = .ok text ∧
      (f.part config slot p).fill strings = text ++ f.fill strings := by
  cases p with
  | text tag =>
    obtain ⟨s, rfl⟩ := List.length_eq_one_iff.mp hlength
    refine ⟨_, partText_text_string config hescaped s, ?_⟩
    rw [Form.part, Form.fill_leave, Form.fill_value h]
  | binding b =>
    have hliterals : b.literals.length = mine.length + 1 := by
      have := b.two_le_length
      simp only [Part.segments] at hlength
      omega
    have hvalue := attributeValue_string (.binding b) b.literals mine
    simp only [partText, map_value_slotsOf, bindingText, Form.part]
    cases b.kind with
    | boolean =>
      obtain ⟨s, rest, rfl⟩ := List.exists_cons_of_length_pos
        (show 0 < mine.length from hlength ▸ Part.segments_pos _)
      refine ⟨if s.isEmpty then [] else b.leading :: b.name, ?_, ?_⟩
      · simp only [List.map_cons, List.head?_cons, Option.getD_some, applied, isTruthy]
        cases s <;> rfl
      · rw [Form.fill_leave, Form.fill_option h]
    | property =>
      by_cases hserialize : config.serializeProperties = true
      · simp only [hserialize, if_true]
        refine ⟨_, ?_, Form.fill_written h hliterals⟩
        rw [hvalue]
        rfl
      · simp only [hserialize, Bool.false_eq_true, if_false]
        exact ⟨[], rfl, rfl⟩
    | event => exact ⟨[], rfl, rfl⟩
    | _ =>
      -- a plain attribute
      refine ⟨_, ?_, Form.fill_written h hliterals⟩
      rw [hvalue]
      rfl

/-- Tiles with strings are written as their form is filled in. -/
theorem tilesText_string (config : Config) {total taken : Nat} {tiles : List (Part × Text)}
    (hescaped : ∀ tile ∈ tiles, tile.1.isEscaped) (h : strings.drop slot = mine)
    (hlength : mine.length = Template.segments tiles) :
    tilesText config total taken tiles (slotsOf config (mine.map .string)) =
      .ok ((Form.ofTiles config slot tiles).fill strings) := by
  induction tiles generalizing slot mine taken with
  | nil => rfl
  | cons tile tiles ih =>
    obtain ⟨p, behind⟩ := tile
    rw [List.forall_mem_cons] at hescaped
    rw [Template.segments, List.map_cons, List.sum_cons] at hlength
    have henough : p.segments ≤ mine.length := hlength ▸ Nat.le_add_right ..
    obtain ⟨first, rest, rfl, hfirst⟩ : ∃ first rest, mine = first ++ rest ∧
        first.length = p.segments :=
      ⟨_, _, (List.take_append_drop p.segments mine).symm, List.length_take_of_le henough⟩
    obtain ⟨text, htext, hpart⟩ := partText_string config
      ((Form.ofTiles config (slot + p.segments) tiles).put behind) hescaped.1 h hfirst
    have hrest : rest.length = Template.segments tiles := by
      rw [List.length_append] at hlength
      exact Nat.add_left_cancel (hfirst ▸ hlength)
    have htiles : tilesText config total (taken + p.segments) tiles
        (slotsOf config (rest.map .string)) =
          .ok ((Form.ofTiles config (slot + p.segments) tiles).fill strings) :=
      ih hescaped.2 (Form.drop_add h hfirst) hrest
    have hslots : (slotsOf config (first.map .string)).length = p.segments := by
      rw [length_slotsOf, List.length_map, hfirst]
    rw [List.map_append, slotsOf_append, tilesText, if_neg (by rw [List.length_append]; omega),
      List.take_left' hslots, List.drop_left' hslots, htext, htiles, Form.ofTiles, hpart,
      Form.fill_put]
    rfl

end Value

namespace Template

/-- The form of a template. -/
def form (config : Config) (t : Template) : Form := (Form.ofTiles config 0 t.tiles).put t.head

/-- With strings for its values a template is resolved by filling in its form. -/
theorem resolve_strings (config : Config) {t : Template} {strings : List Text}
    (hescaped : ∀ tile ∈ t.tiles, tile.1.isEscaped) (hlength : strings.length = t.slotCount) :
    TemplateResult.resolve config ⟨.ok t, strings.map .string⟩ =
      .ok ((t.form config).fill strings) := by
  have hcount : (Value.slotsOf config (strings.map .string)).length = t.slotCount := by
    rw [Value.length_slotsOf, List.length_map, hlength]
  rw [TemplateResult.resolve, Value.templateText_ok, if_neg (not_not_intro hcount),
    Value.tilesText_string config hescaped List.drop_zero (by rw [hlength, slotCount_eq]), form,
    Form.fill_put]
  rfl

end Template

end LiveMarkup
