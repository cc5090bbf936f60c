import LiveMarkup.Proofs.Escape.Bodies
import LiveMarkup.Proofs.Markup.Lacking
import LiveMarkup.Proofs.Template.Bindings

/-!
# Attributes that are left out

A boolean attribute goes away with a false value, and a plain attribute of one value with a value
that is no text; the space in front of it goes too. `lacks_of_dropped` says when a page without the
attribute is the page with it but for the attribute: when it stands in a gap of the page
(`Node.Gap`), has the name of an attribute and holds no double quote. `not_lacks_of_dropped` lists
templates that show what goes wrong otherwise.
-/

namespace LiveMarkup

/-! ## What a binding of one value writes -/

namespace Value

/-- The value of the attribute that a boolean or plain binding writes for one value; nothing when it
leaves the attribute out. -/
def attributeFor (b : Binding) (v : Value) : Except ResolveError (Option Text) :=
  match b.kind with
  | .boolean => do
    match ← applied (.binding b) v with
    | .pending _ _ _ => .error .pendingValue
    | v => return if v.isTruthy then some [] else none
  | _ => attributeValue (.binding b) b.literals [v]

/-- The attribute with a value as the binding writes it; a boolean one is written without. -/
def spelled (b : Binding) (value : Text) : Text :=
  match b.kind with
  | .boolean => b.leading :: b.name
  | _ => attributeMarkup b value

/-- A binding writes its attribute or nothing. -/
theorem bindingText_one (config : Config) {b : Binding}
    (hkind : b.kind = .boolean ∨ b.kind = .attribute) (v : Value) :
    bindingText config b [v] =
      (attributeFor b v).map fun value => (value.map (spelled b)).getD [] := by
  rcases hkind with hkind | hkind
  · simp only [bindingText, attributeFor, hkind, List.head?_cons, Option.getD_some]
    cases applied (.binding b) v with
    | error e => rfl
    | ok v =>
      have hwritten (truthy : Bool) : (if truthy then b.leading :: b.name else []) =
          ((if truthy then some [] else none).map (spelled b)).getD [] := by
        cases truthy
        · rfl
        · simp [spelled, hkind]
      cases v with
      | pending _ _ _ => rfl
      | _ => exact congrArg Except.ok (hwritten _)
  · have hspelled : spelled b = attributeMarkup b := by
      funext value
      simp [spelled, hkind]
    simp only [bindingText, attributeFor, hkind, hspelled]
    cases attributeValue (.binding b) b.literals [v] <;> rfl

/-- What a boolean binding writes has no value. -/
theorem eq_nil_of_attributeFor {b : Binding} {v : Value} {value : Text} (hkind : b.kind = .boolean)
    (h : attributeFor b v = .ok (some value)) : value = [] := by
  simp only [attributeFor, hkind] at h
  cases happlied : applied (.binding b) v with
  | error e =>
    rw [happlied] at h
    cases h
  | ok v =>
    rw [happlied] at h
    have htruthy (truthy : Bool) (h : (if truthy then some ([] : Text) else none) = some value) :
        value = [] := by
      cases truthy
      · cases h
      · exact (Option.some.inj h).symm
    cases v with
    | pending _ _ _ => cases h
    | _ => exact htruthy _ (Except.ok.inj h)

/-- What a binding writes spells its attribute, when its name is a name and its value holds no double
quote. -/
theorem spells_of_attributeFor {b : Binding} {v : Value} {value : Text} (hmade : b.Made)
    (hkind : b.kind = .boolean ∨ b.kind = .attribute) (h : attributeFor b v = .ok (some value))
    (hvalue : '"' ∉ value) : Attributes.Spells b.name value (spelled b value) := by
  rcases hkind with hkind | hkind
  · obtain rfl := eq_nil_of_attributeFor hkind h
    simp only [spelled, hkind]
    exact .bare hmade.leading
  · simp only [spelled, attributeMarkup, hkind, BindingKind.sigil, List.nil_append]
    exact .quoted hmade.leading hvalue

/-- A binding of one value is written between what the tiles before it and behind it are written
as. -/
theorem resolve_binding (config : Config) {t : Template} {before after : List (Part × Text)}
    {b : Binding} {behind text left right : Text} {us ws : List Value} {v : Value}
    (htiles : t.tiles = before ++ (.binding b, behind) :: after) (hone : b.literals.length = 2)
    (hus : us.length = Template.segments before) (hws : ws.length = Template.segments after)
    (hleft : tilesText config t.slotCount 0 before (slotsOf config us) = .ok left)
    (htext : bindingText config b [v] = .ok text)
    (hright : tilesText config t.slotCount (us.length + 1) after (slotsOf config ws) = .ok right) :
    TemplateResult.resolve config ⟨.ok t, us ++ v :: ws⟩ =
      .ok (t.head ++ left ++ (text ++ (behind ++ right))) := by
  have hsegments : Part.segments (.binding b) = 1 := by rw [Part.segments, hone]
  have hcount : (slotsOf config (us ++ v :: ws)).length = t.slotCount := by
    rw [length_slotsOf, Template.slotCount_eq, htiles, Template.segments_append, ← hus,
      Template.segments, List.map_cons, List.sum_cons, hsegments, List.length_append,
      List.length_cons, hws, Template.segments]
    omega
  have htile : tilesText config t.slotCount us.length ((.binding b, behind) :: after)
      (slotsOf config (v :: ws)) = .ok (text ++ (behind ++ right)) := by
    rw [slotsOf, tilesText, hsegments, if_neg (by simp)]
    have hpart : partText config (.binding b)
        ((⟨v, fun tag => nodeText config v false tag⟩ :: slotsOf config ws).take 1) = .ok text :=
      htext
    rw [hpart, List.drop_one, List.tail_cons, hright]
    rfl
  rw [TemplateResult.resolve, templateText_ok, hcount, if_neg (not_not_intro rfl), htiles,
    slotsOf_append, tilesText_append (by rw [length_slotsOf, hus]), hleft, length_slotsOf, Nat.zero_add, htile]
  simp [bind, Except.bind, pure, Except.pure, Except.map]

end Value

/-! ## Templates -/

namespace Template

/-- The name of a binding is one word for readers of markup when it is not empty and holds no `<` and
no grave accent. -/
theorem isName_of_made {b : Binding} (hmade : b.Made) (hne : b.name ≠ [])
    (hname : ∀ c ∈ b.name, c ≠ '<' ∧ c ≠ '\x60') : Attributes.IsName b.name := by
  refine ⟨hne, fun c hc => ?_, fun hslash => ?_⟩
  · exact (Attributes.isWordChar_iff (hmade.chars c hc)).mpr (hname c hc)
  · exact absurd (hmade.chars '/' hslash) (by decide)

/-- An attribute of one value that is left out leaves the rest of the page as it is: when it stands in
a gap of the page, is named like an attribute and holds no double quote, the page without it is read
as the tree of the page with it but for the attribute; where its tag does not end, the two trees are
the same. -/
theorem lacks_of_dropped (config : Config) {fragments : List Text} {t : Template}
    (ht : ofFragments fragments = .ok t) {before after : List (Part × Text)} {b : Binding}
    {behind : Text} (htiles : t.tiles = before ++ (.binding b, behind) :: after)
    (hkind : b.kind = .boolean ∨ b.kind = .attribute ∧ b.literals.length = 2)
    {us ws : List Value} {v w : Value} {value left right : Text}
    (hus : us.length = segments before) (hws : ws.length = segments after)
    (hv : Value.attributeFor b v = .ok (some value)) (hw : Value.attributeFor b w = .ok none)
    (hleft : Value.tilesText config t.slotCount 0 before (Value.slotsOf config us) = .ok left)
    (hright : Value.tilesText config t.slotCount (us.length + 1) after (Value.slotsOf config ws) =
      .ok right)
    (hgap : Node.Gap (t.head ++ left) b.name (behind ++ right)) (hne : b.name ≠ [])
    (hname : ∀ c ∈ b.name, c ≠ '<' ∧ c ≠ '\x60') (hvalue : '"' ∉ value) :
    ∃ page rest,
      TemplateResult.resolve config ⟨.ok t, us ++ v :: ws⟩ = .ok page ∧
        TemplateResult.resolve config ⟨.ok t, us ++ w :: ws⟩ = .ok rest ∧
        (Node.Lacks (b.name, value) (Node.parse page) (Node.parse rest) ∨
          Token.tagEnd? none (behind ++ right) = none ∧ Node.parse page = Node.parse rest) := by
  have hmem : (.binding b, behind) ∈ t.tiles := by
    rw [htiles]
    exact List.mem_append_right _ List.mem_cons_self
  have hmade := made_of_mem_tiles ht hmem
  have hone : b.literals.length = 2 := by
    rcases hkind with hkind | ⟨-, hone⟩
    · exact length_literals_of_boolean ht hmem hkind
    · exact hone
  have hkind : b.kind = .boolean ∨ b.kind = .attribute := hkind.imp_right And.left
  have hwith : Value.bindingText config b [v] = .ok (Value.spelled b value) := by
    rw [Value.bindingText_one config hkind, hv]
    rfl
  have hwithout : Value.bindingText config b [w] = .ok [] := by
    rw [Value.bindingText_one config hkind, hw]
    rfl
  refine ⟨_, _, Value.resolve_binding config htiles hone hus hws hleft hwith hright,
    Value.resolve_binding config htiles hone hus hws hleft hwithout hright, ?_⟩
  exact hgap.parse_lacks (isName_of_made hmade hne hname)
    (Value.spells_of_attributeFor hmade hkind hv hvalue)

/-- A paragraph that is hidden or not, with attributes before and behind. -/
def hideable : Template := Tiling.template {
  head := "<p class=\"note\"".toList
  tiles := [(.binding hiddenFlag, " id=\"n\">text</p>".toList)] }

theorem lacks_of_dropped_hideable : ∃ page rest,
    TemplateResult.resolve {} ⟨.ok hideable, [.bool true]⟩ = .ok page ∧
      TemplateResult.resolve {} ⟨.ok hideable, [.bool false]⟩ = .ok rest ∧
      (Node.Lacks ("hidden".toList, []) (Node.parse page) (Node.parse rest) ∨
        Token.tagEnd? none " id=\"n\">text</p>".toList = none ∧
          Node.parse page = Node.parse rest) := by
  have hsplit : ofFragments ["<p class=\"note\" ?hidden=".toList, " id=\"n\">text</p>".toList] =
      .ok hideable := ofFragments_eq_ok (by decide +kernel)
  have hopening : Node.Opening "p class=\"note\"".toList :=
    ⟨⟨'p', _, rfl, .inl rfl⟩, rfl, by decide +kernel, by decide +kernel⟩
  have hclosing : Node.Closing "p class=\"note\"".toList " id=\"n\"".toList false :=
    ⟨fun _ hc => Option.mem_some.mp hc ▸ rfl, by decide, by decide +kernel, by decide⟩
  have hkey : "hidden".toList ∉ Keyed.keys (Attributes.read
      (("p class=\"note\"".toList ++ " id=\"n\"".toList).dropWhile Node.isNameChar)) := by
    decide +kernel
  have hgap : Node.Gap "<p class=\"note\"".toList "hidden".toList " id=\"n\">text</p>".toList :=
    .intro (.refl _) hopening (.closing hclosing hkey "text</p>".toList)
  have htiles : hideable.tiles = [] ++ (.binding hiddenFlag, " id=\"n\">text</p>".toList) :: [] := rfl
  have hnone : ([] : List Value).length = segments [] := rfl
  have htext (taken : Nat) : Value.tilesText {} 1 taken [] (Value.slotsOf {} []) = .ok [] := rfl
  have hshown : Value.attributeFor hiddenFlag (.bool true) = .ok (some []) := rfl
  have hhidden : Value.attributeFor hiddenFlag (.bool false) = .ok none := rfl
  exact lacks_of_dropped {} hsplit htiles (.inl rfl) hnone hnone hshown hhidden (htext 0)
    (htext 1) hgap (by decide) (List.all_iff_forall_prop.mp (by decide)) (by simp)

/-- A template of one value, two values for it and the page for each. -/
structure Torn where
  fragments : List Text
  shown : Value
  dropped : Value
  page : Text
  rest : Text

namespace Torn

/-- Only the attribute of the one binding is lost from the page. -/
def LosesOne (c : Torn) : Prop :=
  ∀ (t : Template) (b : Binding) (behind value : Text), ofFragments c.fragments = .ok t →
    t.tiles = [(.binding b, behind)] →
    (b.kind = .boolean ∨ b.kind = .attribute ∧ b.literals.length = 2) →
    Value.attributeFor b c.shown = .ok (some value) → Value.attributeFor b c.dropped = .ok none →
    TemplateResult.resolve {} ⟨.ok t, [c.shown]⟩ = .ok c.page →
    TemplateResult.resolve {} ⟨.ok t, [c.dropped]⟩ = .ok c.rest →
    Node.Lacks (b.name, value) (Node.parse c.page) (Node.parse c.rest)

/-- The template has one attribute, which comes and goes with the values, and more than that is lost
from the page. -/
def losesMore (c : Torn) : Bool :=
  match ofFragments c.fragments with
  | .error _ => false
  | .ok t =>
    let page v := (TemplateResult.resolve {} ⟨.ok t, [v]⟩).toOption
    match t.tiles with
    | [(.binding b, _)] =>
      decide (b.kind = .boolean ∨ b.kind = .attribute ∧ b.literals.length = 2) &&
        page c.shown = some c.page && page c.dropped = some c.rest &&
        match Value.attributeFor b c.shown, Value.attributeFor b c.dropped with
        | .ok (some value), .ok none =>
          !Node.isLack (b.name, value) (Node.parse c.page) (Node.parse c.rest)
        | _, _ => false
    | _ => false

theorem not_losesOne {c : Torn} (h : c.losesMore = true) : ¬c.LosesOne := by
  have hok {x : Except ResolveError Text} {page : Text} (h : x.toOption = some page) :
      x = .ok page := by
    cases x with
    | error e => cases h
    | ok text => exact congrArg Except.ok (Option.some.inj h)
  intro hone
  unfold losesMore at h
  split at h
  · cases h
  · next hfragments =>
    dsimp only at h
    split at h
    · next htiles =>
      simp only [Bool.and_eq_true, decide_eq_true_eq] at h
      obtain ⟨⟨⟨hkind, hpage⟩, hrest⟩, h⟩ := h
      split at h
      · next hshown hdropped =>
        have hlacks := hone _ _ _ _ hfragments htiles hkind hshown hdropped (hok hpage) (hok hrest)
        rw [hlacks.isLack] at h
        cases h
      · cases h
    · cases h

end Torn

/-- What stands behind the attribute runs into the name of the tag, what stands before it waits for a
value, what stands behind it begins with an equals sign, a slash comes to stand at the end; the name
is two words because of a grave accent or a `<`, or it is empty; the value holds a double quote; the
tag has the attribute already; there is no tag, or one that closes an element; a quote is open in the
name of the tag, or before the attribute. -/
def torn : List Torn := [
  ⟨["<a x=".toList, "y>".toList], .string ['v'], .nothing, "<a x=\"v\"y>".toList, "<ay>".toList⟩,
  ⟨["<a y= ?x=".toList, ">".toList], .bool true, .bool false, "<a y= x>".toList, "<a y=>".toList⟩,
  ⟨["<a ?x=".toList, " =y>".toList], .bool true, .bool false, "<a x =y>".toList, "<a =y>".toList⟩,
  ⟨["<a/ ?x=".toList, ">".toList], .bool true, .bool false, "<a/ x>".toList, "<a/>".toList⟩,
  ⟨["<a x\x60y=".toList, ">".toList], .string ['v'], .nothing, "<a x\x60y=\"v\">".toList,
    "<a>".toList⟩,
  ⟨["<a x<y=".toList, ">".toList], .string ['v'], .nothing, "<a x<y=\"v\">".toList, "<a>".toList⟩,
  ⟨["<a ?=".toList, ">".toList], .bool true, .bool false, "<a >".toList, "<a>".toList⟩,
  ⟨["<a x='\"".toList, "'>".toList], .string ['v'], .nothing, "<a x=\"\"v\">".toList,
    "<a>".toList⟩,
  ⟨["<a x=\"y\" ?x=".toList, ">".toList], .bool true, .bool false, "<a x=\"y\" x>".toList,
    "<a x=\"y\">".toList⟩,
  ⟨["< ?x=".toList, ">".toList], .bool true, .bool false, "< x>".toList, "<>".toList⟩,
  ⟨["</a ?x=".toList, ">".toList], .bool true, .bool false, "</a x>".toList, "</a>".toList⟩,
  ⟨["<a\"y z\" x=".toList, ">".toList], .string ['v'], .nothing, "<a\"y z\" x=\"v\">".toList,
    "<a\"y z\">".toList⟩,
  ⟨["<a \" ?x=".toList, "\">".toList], .bool true, .bool false, "<a \" x\">".toList,
    "<a \"\">".toList⟩]

theorem not_lacks_of_dropped : ¬∃ c ∈ torn, c.LosesOne := by
  have hall : torn.all Torn.losesMore = true := by decide +kernel
  rintro ⟨c, hc, hone⟩
  exact Torn.not_losesOne (List.all_eq_true.mp hall c hc) hone

end Template

end LiveMarkup
