import LiveMarkup.Proofs.Template.Slots
import Mathlib.Data.List.Forall2

/-!
# What is bound for the client only

Two values are alike when they are the same but for the values of event handlers and properties, at
whatever depth of lists and templates these stand (`Value.Alike`). As long as properties are not
written, such values leave the same trace wherever they stand: the same text in an element, the same
piece of an attribute, the same boolean attribute, and the same error (`Value.Alike.tells`). So
`TemplateResult.resolve_alike`: templates with alike values come to the same.
-/

namespace LiveMarkup

namespace Value

variable {config : Config} {part : Part} {b : Binding}

/-! ## Slots that tell the same -/

/-- Two slots tell a part the same. -/
def Slot.Agrees (part : Part) (s s' : Slot) : Prop :=
  match part with
  | .text tag => s.node tag = s'.node tag
  | .binding b =>
    pieceAt (.binding b) s.value = pieceAt (.binding b) s'.value ∧
      switchAt (.binding b) s.value = switchAt (.binding b) s'.value

theorem forall₂_of_getElem? {α : Type} {R : α → α → Prop} {l l' : List α}
    (hlength : l.length = l'.length)
    (h : ∀ (k : Nat) (a a' : α), l[k]? = some a → l'[k]? = some a' → R a a') :
    List.Forall₂ R l l' := by
  refine List.forall₂_iff_get.mpr ⟨hlength, fun i hi hi' => ?_⟩
  exact h i _ _ (List.getElem?_eq_getElem hi) (List.getElem?_eq_getElem hi')

theorem attributeValue_congr {vs vs' : List Value}
    (h : List.Forall₂ (fun v v' => pieceAt part v = pieceAt part v') vs vs')
    (literals : List Text) :
    attributeValue part literals vs = attributeValue part literals vs' := by
  induction h generalizing literals with
  | nil => rfl
  | cons hv _ ih =>
    cases literals with
    | nil => rfl
    | cons literal literals => rw [attributeValue_cons, attributeValue_cons, hv, ih]

/-- A part writes the same for slots that tell it the same. -/
theorem partText_congr {slots slots' : List Slot}
    (h : part.isWritten config = true → List.Forall₂ (Slot.Agrees part) slots slots') :
    partText config part slots = partText config part slots' := by
  cases part with
  | text tag =>
    have hagrees := h rfl
    have hnodes : slots.mapM (fun (s : Slot) => s.node tag) = slots'.mapM fun s => s.node tag := by
      clear h
      induction hagrees with
      | nil => rfl
      | cons hs _ ih =>
        have hnode : Slot.node _ tag = Slot.node _ tag := hs
        rw [List.mapM_cons, List.mapM_cons, hnode, ih]
    rw [partText, partText, hnodes]
  | binding b =>
    rw [partText, partText]
    cases hwritten : (Part.binding b).isWritten config with
    | false => rw [bindingText_of_not_isWritten hwritten, bindingText_of_not_isWritten hwritten]
    | true =>
      have hagrees := h hwritten
      by_cases hkind : b.kind = .boolean
      · rw [bindingText_boolean hkind, bindingText_boolean hkind]
        cases hagrees with
        | nil => rfl
        | cons hs _ => exact congrArg (· >>= _) hs.2
      · have hpieces : List.Forall₂ (fun v v' => pieceAt (.binding b) v = pieceAt (.binding b) v')
            (slots.map Slot.value) (slots'.map Slot.value) :=
          List.forall₂_map_left_iff.mpr
            (List.forall₂_map_right_iff.mpr (hagrees.imp fun _ _ hs => hs.1))
        rw [bindingText_attribute hwritten hkind, bindingText_attribute hwritten hkind,
          attributeValue_congr hpieces]

/-- Tiles are written the same with slots that tell each part the same. -/
theorem tilesText_congr {total taken : Nat} {tiles : List (Part × Text)}
    {slots slots' : List Slot} (hlength : slots.length = slots'.length)
    (h : ∀ (k : Nat) (owner : Part) (s s' : Slot),
      (Tiling.owners tiles)[k]? = some owner → owner.isWritten config = true →
      slots[k]? = some s → slots'[k]? = some s' → s.Agrees owner s') :
    tilesText config total taken tiles slots = tilesText config total taken tiles slots' := by
  induction tiles generalizing taken slots slots' with
  | nil => rfl
  | cons tile tiles ih =>
    obtain ⟨part, behind⟩ := tile
    have hpart : partText config part (slots.take part.segments) =
        partText config part (slots'.take part.segments) := by
      refine partText_congr fun hwritten => forall₂_of_getElem? (by simp [hlength]) ?_
      intro k s s' hs hs'
      rw [List.getElem?_take] at hs hs'
      by_cases hk : k < part.segments
      · rw [if_pos hk] at hs hs'
        exact h k part s s' (Tiling.getElem?_owners_of_lt hk) hwritten hs hs'
      · rw [if_neg hk] at hs
        cases hs
    have hrest : tilesText config total (taken + part.segments) tiles (slots.drop part.segments) =
        tilesText config total (taken + part.segments) tiles (slots'.drop part.segments) := by
      refine ih (by simp [hlength]) fun k owner s s' howner hwritten hs hs' => ?_
      rw [List.getElem?_drop] at hs hs'
      exact h _ owner s s' (Tiling.getElem?_owners_add.trans howner) hwritten hs hs'
    rw [tilesText, tilesText, hlength, hpart, hrest]

theorem templateText_congr {t : Template} {slots slots' : List Slot}
    (hlength : slots.length = slots'.length)
    (h : ∀ (k : Nat) (owner : Part) (s s' : Slot), t.owners[k]? = some owner →
      owner.isWritten config = true → slots[k]? = some s → slots'[k]? = some s' →
        s.Agrees owner s') :
    templateText config (.ok t) slots = templateText config (.ok t) slots' := by
  rw [templateText_ok, templateText_ok, hlength, tilesText_congr hlength h]

/-! ## One value for another -/

theorem Slot.Agrees.refl (part : Part) (s : Slot) : s.Agrees part s := by
  cases part with
  | text tag => exact rfl
  | binding b => exact ⟨rfl, rfl⟩

/-- The slots of values that differ in one place. -/
theorem forall₂_agrees {v v' : Value} (h : (slot config v).Agrees part (slot config v'))
    (us ws : List Value) : List.Forall₂ (Slot.Agrees part) (slotsOf config (us ++ v :: ws))
      (slotsOf config (us ++ v' :: ws)) := by
  induction us with
  | nil =>
    rw [List.nil_append, List.nil_append, slotsOf_cons, slotsOf_cons]
    exact .cons h (List.forall₂_same.mpr fun s _ => .refl part s)
  | cons u us ih =>
    rw [List.cons_append, List.cons_append, slotsOf_cons, slotsOf_cons]
    exact .cons (.refl part _) ih

theorem getElem?_slotsOf_of_ne (config : Config) {us : List Value} (v v' : Value)
    (ws : List Value) {k : Nat} (hk : k ≠ us.length) :
    (slotsOf config (us ++ v :: ws))[k]? = (slotsOf config (us ++ v' :: ws))[k]? := by
  induction us generalizing k with
  | nil =>
    obtain ⟨k, rfl⟩ := Nat.exists_eq_succ_of_ne_zero hk
    rw [List.nil_append, List.nil_append, slotsOf_cons, slotsOf_cons, List.getElem?_cons_succ,
      List.getElem?_cons_succ]
  | cons u us ih =>
    rw [List.cons_append, List.cons_append, slotsOf_cons, slotsOf_cons]
    cases k with
    | zero => rfl
    | succ k => exact ih fun heq => hk (congrArg Nat.succ heq)

theorem getElem?_slotsOf_length (config : Config) (us : List Value) (v : Value)
    (ws : List Value) : (slotsOf config (us ++ v :: ws))[us.length]? = some (slot config v) := by
  rw [getElem?_slotsOf, List.getElem?_append_right (Nat.le_refl _), Nat.sub_self]
  rfl

/-- A template is written the same with one value in place of another where the part that this one
belongs to is told the same. -/
theorem templateText_congr_at {t : Template} {us ws : List Value} {v v' : Value}
    (h : ∀ owner, t.owners[us.length]? = some owner →
      (slot config v).Agrees owner (slot config v')) :
    templateText config (.ok t) (slotsOf config (us ++ v :: ws)) =
      templateText config (.ok t) (slotsOf config (us ++ v' :: ws)) := by
  refine templateText_congr ?_ fun k owner s s' howner _ hs hs' => ?_
  · rw [length_slotsOf, length_slotsOf, List.length_append, List.length_append]
    rfl
  · by_cases hk : k = us.length
    · subst hk
      rw [getElem?_slotsOf_length] at hs hs'
      cases hs
      cases hs'
      exact h owner howner
    · rw [getElem?_slotsOf_of_ne config v v' ws hk] at hs
      obtain rfl := Option.some.inj (hs.symm.trans hs')
      exact .refl owner s

/-! ## Values that are alike -/

/-- The values are the same but for those that are bound to parts for the client, in their
templates, lists and what their directives give. -/
inductive Alike : Value → Value → Prop
  | refl (v : Value) : Alike v v
  | list {items items' : List Value} (hlength : items.length = items'.length)
    (h : ∀ (k : Nat) (v v' : Value), items[k]? = some v → items'[k]? = some v' → Alike v v') :
    Alike (.list items) (.list items')
  | template {t : Template} {values values' : List Value}
    (hlength : values.length = values'.length)
    (h : ∀ (k : Nat) (owner : Part) (v v' : Value), t.owners[k]? = some owner →
      owner.isClientOnly = false → values[k]? = some v → values'[k]? = some v' → Alike v v') :
    Alike (.template (.ok t) values) (.template (.ok t) values')
  | directive {apply apply' : Part → Except ResolveError Value}
    (hfault : ∀ part e, apply part = .error e ↔ apply' part = .error e)
    (h : ∀ part v v', apply part = .ok v → apply' part = .ok v' → Alike v v') :
    Alike (.directive apply) (.directive apply')

/-- Two values tell the same wherever they stand. -/
structure Tells (config : Config) (v v' : Value) : Prop where
  node : ∀ result tag, nodeText config v result tag = nodeText config v' result tag
  piece : ∀ part, attributePiece part v = attributePiece part v'
  switch : switchPiece v = switchPiece v'
  json : toJson? v = toJson? v'
  pieceAt : ∀ part, pieceAt part v = pieceAt part v'
  switchAt : ∀ part, switchAt part v = switchAt part v'

theorem nodeTextAll_congr {vs vs' : List Value}
    (h : List.Forall₂ (fun v v' => nodeText config v false = nodeText config v' false) vs vs')
    (tag : Text) : nodeTextAll config vs tag = nodeTextAll config vs' tag := by
  induction h with
  | nil => rfl
  | cons hv _ ih => rw [nodeTextAll, nodeTextAll, hv, ih]

theorem toJsonAll?_congr {vs vs' : List Value}
    (h : List.Forall₂ (fun v v' => toJson? v = toJson? v') vs vs') :
    toJsonAll? vs = toJsonAll? vs' := by
  induction h with
  | nil => rfl
  | cons hv _ ih => rw [toJsonAll?, toJsonAll?, hv, ih]

/-- Where no directive is applied, what a value tells by itself is all. -/
theorem Tells.of_applied {v v' : Value} (hv : ∀ part, applied part v = .ok v)
    (hv' : ∀ part, applied part v' = .ok v')
    (node : ∀ result tag, nodeText config v result tag = nodeText config v' result tag)
    (piece : ∀ part, attributePiece part v = attributePiece part v')
    (switch : switchPiece v = switchPiece v') (json : toJson? v = toJson? v') :
    Tells config v v' where
  node := node
  piece := piece
  switch := switch
  json := json
  pieceAt part := by
    rw [Value.pieceAt, Value.pieceAt, hv, hv']
    exact piece part
  switchAt part := by
    rw [Value.switchAt, Value.switchAt, hv, hv']
    exact switch

theorem Tells.list {items items' : List Value} (h : List.Forall₂ (Tells config) items items') :
    Tells config (.list items) (.list items') := by
  have hjson : toJson? (.list items) = toJson? (.list items') := by
    rw [toJson?, toJson?, toJsonAll?_congr (h.imp fun _ _ hv => hv.json)]
  refine .of_applied (fun _ => rfl) (fun _ => rfl) (fun result tag => ?_) (fun part => ?_) rfl hjson
  · rw [nodeText, nodeText]
    exact nodeTextAll_congr (h.imp fun _ _ hv => funext (hv.node false)) tag
  · rw [attributePiece, attributePiece, hjson]
    rfl

/-- A template looks at the values that are bound to written parts. -/
theorem Tells.template {t : Template} {values values' : List Value}
    (hlength : values.length = values'.length)
    (h : ∀ (k : Nat) (owner : Part) (v v' : Value), t.owners[k]? = some owner →
      owner.isWritten config = true → values[k]? = some v → values'[k]? = some v' →
        Tells config v v') :
    Tells config (.template (.ok t) values) (.template (.ok t) values') := by
  refine .of_applied (fun _ => rfl) (fun _ => rfl) (fun result tag => ?_) (fun _ => rfl) rfl rfl
  rw [nodeText, nodeText]
  refine templateText_congr (by rw [length_slotsOf, length_slotsOf, hlength]) ?_
  intro k owner s s' howner hwritten hs hs'
  rw [getElem?_slotsOf, Option.map_eq_some_iff] at hs hs'
  obtain ⟨v, hv, rfl⟩ := hs
  obtain ⟨v', hv', rfl⟩ := hs'
  have htells := h k owner v v' howner hwritten hv hv'
  cases owner with
  | text tag => exact htells.node false tag
  | binding b => exact ⟨htells.pieceAt _, htells.switchAt _⟩

/-- A directive tells what it comes to. -/
theorem Tells.directive {apply apply' : Part → Except ResolveError Value}
    (hfault : ∀ part e, apply part = .error e ↔ apply' part = .error e)
    (h : ∀ part v v', apply part = .ok v → apply' part = .ok v' → Tells config v v') :
    Tells config (.directive apply) (.directive apply') := by
  have hcases (part : Part) : (∃ e, apply part = .error e ∧ apply' part = .error e) ∨
      ∃ v v', apply part = .ok v ∧ apply' part = .ok v' ∧ Tells config v v' := by
    cases happly : apply part with
    | error e => exact .inl ⟨e, rfl, (hfault part e).mp happly⟩
    | ok v =>
      cases happly' : apply' part with
      | error e => cases happly.symm.trans ((hfault part e).mpr happly')
      | ok v' => exact .inr ⟨v, v', rfl, rfl, h part v v' happly happly'⟩
  refine ⟨fun result tag => ?_, fun _ => rfl, rfl, rfl, fun part => ?_, fun part => ?_⟩
  · cases result with
    | true => rw [nodeText, nodeText, if_pos rfl, if_pos rfl]
    | false =>
      rw [nodeText, nodeText, if_neg Bool.false_ne_true, if_neg Bool.false_ne_true]
      rcases hcases (.text tag) with ⟨e, he, he'⟩ | ⟨v, v', hv, hv', htells⟩
      · rw [he, he']
      · rw [hv, hv', resultText, resultText, htells.node]
  · rcases hcases part with ⟨e, he, he'⟩ | ⟨v, v', hv, hv', htells⟩
    · rw [Value.pieceAt, Value.pieceAt, applied, applied, he, he']
    · rw [Value.pieceAt, Value.pieceAt, applied, applied, hv, hv']
      exact htells.piece part
  · rcases hcases part with ⟨e, he, he'⟩ | ⟨v, v', hv, hv', htells⟩
    · rw [Value.switchAt, Value.switchAt, applied, applied, he, he']
    · rw [Value.switchAt, Value.switchAt, applied, applied, hv, hv']
      exact htells.switch

/-- Alike values tell the same as long as properties are not written. -/
theorem Alike.tells (hoff : config.serializeProperties = false) {v v' : Value} (h : Alike v v') :
    Tells config v v' := by
  induction h with
  | refl v => exact ⟨fun _ _ => rfl, fun _ => rfl, rfl, rfl, fun _ => rfl, fun _ => rfl⟩
  | list hlength _ ih => exact .list (forall₂_of_getElem? hlength ih)
  | template hlength _ ih =>
    refine .template hlength fun k owner v v' howner hwritten hv hv' => ?_
    exact ih k owner v v' howner (Part.isClientOnly_of_isWritten hoff hwritten) hv hv'
  | directive hfault _ ih => exact .directive hfault ih

end Value

namespace TemplateResult

/-- The templates are the same, and so are their values but for those for the client. -/
def Alike (r r' : TemplateResult) : Prop := r.value.Alike r'.value

/-- What is bound for the client only is inert: templates whose values differ in nothing else come
to the same text or to the same error. -/
theorem resolve_alike {config : Config} (hoff : config.serializeProperties = false)
    {r r' : TemplateResult} (h : r.Alike r') : r.resolve config = r'.resolve config := by
  rw [← nodeText_value r false [], ← nodeText_value r' false []]
  exact (Value.Alike.tells hoff h).node false []

/-- A button with a handler, items for the client, and a label. -/
def button : Template := Tiling.template {
  head := "<button".toList
  tiles := [
    (.binding (.single .event "click".toList "button".toList), []),
    (.binding (.single .property "items".toList "button".toList), ['>']),
    (.text "button".toList, "</button>".toList)] }

theorem ofFragments_button : Template.ofFragments
    ["<button @click=".toList, " .items=".toList, ['>'], "</button>".toList] = .ok button :=
  Template.ofFragments_eq_ok (by decide +kernel)

theorem alike_button (handler items handler' items' : Value) {label label' : Value}
    (h : label.Alike label') : Value.Alike (.template (.ok button) [handler, items, label])
      (.template (.ok button) [handler', items', label']) := by
  refine .template rfl fun k owner v v' howner hclient hv hv' => ?_
  match k with
  | 0 | 1 =>
    cases howner
    cases hclient
  | 2 =>
    cases hv
    cases hv'
    exact h
  | k + 3 => cases hv

/-- A button in a button, both with the same handler and items. -/
def nestedButton (handler items : Value) : TemplateResult where
  template := Template.ofFragments
    ["<button @click=".toList, " .items=".toList, ['>'], "</button>".toList]
  values := [handler, items, .list [.template (.ok button) [handler, items, .string "go".toList]]]

theorem value_nestedButton (handler items : Value) : (nestedButton handler items).value =
    .template (.ok button)
      [handler, items, .list [.template (.ok button) [handler, items, .string "go".toList]]] := by
  rw [value, nestedButton, ofFragments_button]

theorem alike_nestedButton (handler items handler' items' : Value) :
    (nestedButton handler items).Alike (nestedButton handler' items') := by
  rw [Alike, value_nestedButton, value_nestedButton]
  refine alike_button _ _ _ _ (.list rfl fun k v v' hv hv' => ?_)
  cases k with
  | zero =>
    cases hv
    cases hv'
    exact alike_button _ _ _ _ (.refl _)
  | succ k => cases hv

/-- A directive that fails and a list of a value to wait for tell no more than a function and
null. -/
theorem resolve_alike_nestedButton :
    (nestedButton (.directive fun part => .error (.incompatiblePart [] part))
        (.list [.pending 1 none (.error [])])).resolve {} =
      (nestedButton .function .null).resolve {} ∧
    (nestedButton .function .null).resolve {} =
      .ok "<button><button>go</button></button>".toList := by
  refine ⟨resolve_alike rfl (alike_nestedButton _ _ _ _), ?_⟩
  rw [← nodeText_value _ false [], value_nestedButton]
  rfl

end TemplateResult

end LiveMarkup
