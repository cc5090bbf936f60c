import LiveMarkup.Proofs.Element.Attributes
import LiveMarkup.Proofs.Json.Apostrophes
import LiveMarkup.Proofs.Template.Pipeline

/-!
# Values that reach elements

The tags of a page that is made from a stencil and data are those of the stencil, with the data in
their attributes. An array or object that is the whole value of an attribute reaches the render
function of the element as it was, unless it has an apostrophe in a string or a key.
-/

namespace LiveMarkup

/-! ## Data in holes -/

namespace Value

/-- Null, truth values, numbers, strings and JSON. -/
def isData : Value → Bool
  | .null | .bool _ | .number _ | .string _ | .json _ => true
  | .nothing | .raw _ | .template _ _ | .list _ | .function | .directive _ | .pending _ _ _ => false

/-- What a piece of data writes into an attribute value. -/
def dataValue : Value → Text
  | .json (.arr items) => Json.attributeText (.arr items)
  | .json (.obj fields) => Json.attributeText (.obj fields)
  | .json j => Text.escapeEntities (((ofJson j).primitiveText?).getD [])
  | v => Text.escapeEntities ((v.primitiveText?).getD [])

/-- What a piece of data writes into the text of a plain element. -/
def dataText : Value → Text
  | .json j => Json.nodeText .text j
  | v => Text.escapeEntities ((v.primitiveText?).getD [])

theorem dataValue_of_isNested {j : Json} (h : j.isNested = true) :
    dataValue (.json j) = j.attributeText := by
  cases j with
  | arr items => rfl
  | obj fields => rfl
  | _ => cases h

theorem fills_data (config : Config) {v : Value} (h : v.isData = true) :
    Slot.Fills ⟨v, fun tag => nodeText config v false tag⟩ v.dataValue v.dataText where
  value part := by
    refine ⟨v, ?_, ?_⟩
    · cases v <;> first | rfl | cases h
    · cases v with
      | json j => cases j <;> rfl
      | _ => first | rfl | cases h
  text tag htag := by
    show nodeText config v false tag = .ok v.dataText
    rw [PlainTag] at htag
    cases v with
    | null => rw [nodeText]; rfl
    | bool b => rw [nodeText, htag]; rfl
    | number x => rw [nodeText, htag]; rfl
    | string t => rw [nodeText, htag]; rfl
    | json j => rw [nodeText, htag]; rfl
    | _ => cases h

theorem not_mem_dataValue (v : Value) : '"' ∉ v.dataValue := by
  have hescaped : ∀ t, '"' ∉ Text.escapeEntities t := Text.not_mem_escapeEntities (by decide)
  cases v with
  | json j =>
    cases j with
    | arr items => exact Json.quote_not_mem_attributeText _
    | obj fields => exact Json.quote_not_mem_attributeText _
    | _ => exact hescaped _
  | _ => exact hescaped _

end Value

namespace Json

mutual

theorem not_mem_nodeText (j : Json) : '<' ∉ nodeText .text j := by
  have hescaped : ∀ t, '<' ∉ Text.escapeEntities t := Text.not_mem_escapeEntities (by decide)
  cases j with
  | null => exact List.not_mem_nil
  | arr items => exact not_mem_nodeTextAll items
  | _ =>
    rw [nodeText]
    exact hescaped _

theorem not_mem_nodeTextAll (items : List Json) : '<' ∉ nodeTextAll .text items := by
  cases items with
  | nil => exact List.not_mem_nil
  | cons j js =>
    rw [nodeTextAll, List.mem_append, not_or]
    exact ⟨not_mem_nodeText j, not_mem_nodeTextAll js⟩

end

end Json

theorem Value.not_mem_dataText (v : Value) : '<' ∉ v.dataText := by
  have hescaped : ∀ t, '<' ∉ Text.escapeEntities t := Text.not_mem_escapeEntities (by decide)
  cases v with
  | json j => exact Json.not_mem_nodeText j
  | _ => exact hescaped _

/-! ## Tags -/

namespace Node

mutual

theorem heads_dropBlank (n : Node) : heads (dropBlank n) = heads n := by
  cases n with
  | tag head children => rw [dropBlank, heads, heads, headsAll_dropBlankAll children]
  | _ => rfl

theorem headsAll_dropBlankAll (ns : List Node) : headsAll (dropBlankAll ns) = headsAll ns := by
  cases ns with
  | nil => rfl
  | cons n ns =>
    have hn := heads_dropBlank n
    have hns := headsAll_dropBlankAll ns
    cases n with
    | text content =>
      rw [dropBlankAll]
      split
      · rw [hns]; rfl
      · rw [headsAll, headsAll, hns]
    | _ => simp only [dropBlankAll, headsAll, hn, hns]

end

end Node

namespace Stencil

open Node

variable {α : Type}

/-- The tags of a stencil in the order in which they are written. -/
def tags : Stencil α → List (ElementName × AttributeRuns α)
  | .text _ => []
  | .element _ name attributes children after =>
    (name, attributes) :: (children.tags ++ after.tags)

/-- The head of a tag with data in its holes. -/
def headOf (v : α → Value) (tag : ElementName × AttributeRuns α) : TagHead :=
  ⟨tag.1.text, tag.2.fill fun a => (v a).dataValue, false⟩

theorem headsAll_fill (v : α → Value) (text : α → Text) (s : Stencil α) :
    headsAll (s.fill (fun a => (v a).dataValue) text) = s.tags.map (headOf v) := by
  induction s with
  | text run => rfl
  | element before name attributes children after ihchildren ihafter =>
    simp only [fill, headsAll, heads, ihchildren, ihafter, tags, List.map_cons, List.map_append,
      List.nil_append, List.cons_append]
    rfl

/-- The tags of a page made from a stencil and data are those of the stencil with the data in their
attributes. -/
theorem headsAll_parse (config : Config) (s : Stencil α) {v : α → Value}
    (hdata : ∀ a, (v a).isData = true) :
    ∃ out, (TemplateResult.ofFragments s.fragments (s.holes.map v)).resolve config = .ok out ∧
      headsAll (parse out) = s.tags.map (headOf v) := by
  obtain ⟨t, ht, hresolve⟩ :=
    resolve_fragments config s (fun a => Value.fills_data config (hdata a))
      fun a => Value.not_mem_dataValue (v a)
  refine ⟨markupAll (s.fill (fun a => (v a).dataValue) fun a => (v a).dataText), ?_, ?_⟩
  · rw [TemplateResult.ofFragments, ht]
    exact hresolve
  · rw [← headsAll_dropBlankAll, parse_markupAll_fill (fun a => Value.not_mem_dataValue (v a))
      (fun a => Value.not_mem_dataText (v a)), headsAll_dropBlankAll, headsAll_fill]

/-! ## Attributes that are a single hole -/

theorem toLower_of_isNameChar {c : Char} (h : isNameChar c = true) : c.toLower = c := by
  have hlower : ¬(c.val ≥ 'A'.val ∧ c.val ≤ 'Z'.val) := by
    intro hupper
    simp only [isNameChar, Bool.or_eq_true, decide_eq_true_eq] at h
    rcases h with (h | h) | rfl
    · obtain ⟨ha, -⟩ := Bool.and_eq_true_iff.mp h
      have hle : 'a'.val ≤ 'Z'.val := UInt32.le_trans (of_decide_eq_true ha) hupper.2
      exact absurd hle (by decide)
    · obtain ⟨-, h9⟩ := Bool.and_eq_true_iff.mp h
      have hle : 'A'.val ≤ '9'.val := UInt32.le_trans hupper.1 (of_decide_eq_true h9)
      exact absurd hle (by decide)
    · exact absurd hupper (by decide)
  exact dif_neg hlower

theorem Name.lower_text (name : Name) : Text.lower name.text = name.text :=
  (List.map_congr_left fun c hc => toLower_of_isNameChar (name.chars c hc)).trans (List.map_id' _)

/-- What is bound to a declared attribute is read by its type from what it writes. -/
theorem get?_coerceAttrs_headOf {d : Declaration} {v : α → Value}
    {tag : ElementName × AttributeRuns α} {name : Name} {a : α}
    (hmem : (name, Run.single a) ∈ tag.2.entries) {declared : Text} {ty : AttrType}
    (h : d.attrType? name.text = some (declared, ty)) :
    Keyed.get? (d.coerceAttrs (headOf v tag).attributes).1 declared =
      some (ty.parse (some (v a).dataValue)) := by
  have hattribute : (name.text, (v a).dataValue) ∈ (headOf v tag).attributes := by
    have hfill := List.mem_map_of_mem
      (f := fun b : Name × Run α isBarredInValue => (b.1.text, b.2.fill fun a => (v a).dataValue))
      hmem
    rwa [Run.fill_single] at hfill
  have hkeys : (Keyed.keys (headOf v tag).attributes).Nodup := tag.2.nodup_keys_fill _
  have hlower : ∀ b ∈ (headOf v tag).attributes, Text.lower b.1 = b.1 := by
    intro b hb
    obtain ⟨entry, -, rfl⟩ := List.mem_map.mp hb
    exact entry.1.lower_text
  exact Declaration.get?_coerceAttrs hattribute hkeys hlower h

end Stencil

/-- The element, rendered for a tag with these attributes, has `j` under a name whenever it looks at
its attributes. -/
def Element.Shows {H : Type} (e : Element H) (attributes : Attributes) (name : Text) (j : Json) :
    Prop :=
  Keyed.get? (e.coerceAttrs attributes).1 name = some j ∧
    ∀ host, ∀ view ∈ e.render.views (e.renderState (e.coerceAttrs attributes).1 host),
      Keyed.get? view.attrs name = some j

namespace Json

/-- An array or object without apostrophes in its strings and keys comes back from its attribute
text, and from a page whose stencil binds it to an attribute of an element it reaches the render
function of the element. With an apostrophe it comes back from its attribute text as another
value. -/
theorem reaches_element {j : Json} (hnested : j.isNested = true) (hplain : j.Plain)
    (hdepth : j.depth ≤ maxDepth) :
    (j.FreeOf '\'' →
      (∀ ty : BasicType, ty.kind = .object ∨ ty.kind = .array →
        ty.parse (some j.attributeText) = j) ∧
      ∀ {α H : Type} (config : Config) (s : Stencil α) (v : α → Value),
        (∀ a, (v a).isData = true) →
        ∃ out, (TemplateResult.ofFragments s.fragments (s.holes.map v)).resolve config = .ok out ∧
          Node.headsAll (Node.parse out) = s.tags.map (Stencil.headOf v) ∧
          ∀ tag ∈ s.tags, ∀ name a, (name, Run.single a) ∈ tag.2.entries → v a = .json j →
            ∀ (e : Element H) (declared : Text) (ty : BasicType),
              e.attrType? name.text = some (declared, ty.attrType) →
              ty.kind = .object ∨ ty.kind = .array →
              e.Shows (Stencil.headOf v tag).attributes declared j) ∧
    (¬j.FreeOf '\'' → ∀ ty : BasicType, ty.kind = .object ∨ ty.kind = .array →
      same j (ty.parse (some j.attributeText)) = false) := by
  refine ⟨fun hfree => ?_, fun hfree ty hkind =>
    not_same_parse_attributeText hnested hplain hfree hkind⟩
  have hparse : ∀ ty : BasicType, ty.kind = .object ∨ ty.kind = .array →
      ty.parse (some j.attributeText) = j := fun ty hkind =>
    parse_attributeText_of_free hnested hplain hdepth hfree hkind
  refine ⟨hparse, fun config s v hdata => ?_⟩
  obtain ⟨out, hresolve, hheads⟩ := Stencil.headsAll_parse config s hdata
  refine ⟨out, hresolve, hheads, fun tag _ name a hmem hv e declared ty htype hkind => ?_⟩
  have hget := Stencil.get?_coerceAttrs_headOf (v := v) hmem htype
  have hread : ty.attrType.parse (some j.attributeText) = j := hparse ty hkind
  rw [hv, Value.dataValue_of_isNested hnested, hread] at hget
  refine ⟨hget, fun host view hview => ?_⟩
  rw [Render.attrs_of_mem_views hview]
  exact hget

/-- The object of one member, under `index`. -/
def indexObject : Json := .obj [("index".toList, .int 1)]

/-- A page of one element with `meta` as its only attribute, a hole. -/
def itemPage : Stencil Unit :=
  .element default
    { text := "app-item".toList
      start := ⟨'a', rfl, rfl⟩
      chars := List.all_eq_true.mp rfl
      not_void := by decide
      not_raw := by decide }
    { entries := [(⟨"meta".toList, ⟨'m', rfl, rfl⟩, List.all_eq_true.mp rfl⟩, Run.single ())]
      distinct := by decide }
    (.text default) (.text default)

/-- An element that declares `meta` to be an object. -/
def appItem : Element Unit where
  name := "app-item".toList
  attrTypes := [("meta".toList, BasicType.attrType { kind := .object })]
  render := .hook .view fun _ => .finish (.ofFragments [[]] [])

theorem appItem_shows_indexObject :
    ∃ out, (TemplateResult.ofFragments itemPage.fragments
        (itemPage.holes.map fun _ => .json indexObject)).resolve {} = .ok out ∧
      Node.headsAll (Node.parse out) =
        [⟨"app-item".toList, [("meta".toList, "\x7b'index':1\x7d".toList)], false⟩] ∧
      appItem.Shows [("meta".toList, "\x7b'index':1\x7d".toList)] "meta".toList indexObject := by
  have hplain : indexObject.Plain := ⟨by decide, ⟨rfl, trivial⟩⟩
  have hfree : indexObject.FreeOf '\'' := ⟨by decide, trivial, trivial⟩
  obtain ⟨out, hresolve, hheads, hshows⟩ :=
    ((reaches_element rfl hplain (by decide)).1 hfree).2 {} itemPage (fun _ => .json indexObject)
      fun _ => rfl
  have hhead : itemPage.tags.map (Stencil.headOf fun _ => .json indexObject) =
      [⟨"app-item".toList, [("meta".toList, "\x7b'index':1\x7d".toList)], false⟩] := by
    decide +kernel
  rw [hhead] at hheads
  have hshow := hshows _ List.mem_cons_self _ _ List.mem_cons_self rfl appItem "meta".toList
    { kind := .object } rfl (.inl rfl)
  exact ⟨out, hresolve, hheads, hshow⟩

/-- An apostrophe in a string ends the string when its attribute is read. -/
theorem not_reaches_element : ¬∀ j : Json, j.isNested = true → j.Plain → j.depth ≤ 100 →
    ∀ ty : BasicType, ty.kind = .object ∨ ty.kind = .array →
      ty.parse (some j.attributeText) = j := by
  intro h
  have hread := h (.obj [("a".toList, .str "it's".toList)]) rfl ⟨by decide, ⟨trivial, trivial⟩⟩
    (by decide) { kind := .object } (.inl rfl)
  have hother : same (.obj [("a".toList, .str "it's".toList)]) (BasicType.parse { kind := .object }
      (some (attributeText (.obj [("a".toList, .str "it's".toList)])))) = false := by
    decide +kernel
  rw [hread] at hother
  exact absurd hother (by decide)

end Json

end LiveMarkup
