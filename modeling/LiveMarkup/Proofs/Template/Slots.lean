import LiveMarkup.Proofs.Template.Layout
import LiveMarkup.Proofs.Template.Owners

/-!
# Slots and their parts

Each value of a template is written at the part that its slot belongs to (`Template.owners`), and
what a part writes depends on what it makes of each of its values alone: the text of the value in an
element, what it adds to an attribute (`Value.pieceAt`), or whether it switches the attribute on
(`Value.switchAt`). Some parts are for the client only and are not looked at.
-/

namespace LiveMarkup

namespace Binding

theorem two_le_length_single : 2 ≤ ([[], []] : List Text).length := Nat.le_refl 2

/-- The binding of a name to one value, with nothing around the value. -/
def single (kind : BindingKind) (name tag : Text) : Binding where
  kind := kind
  name := name
  literals := [[], []]
  tag := tag
  leading := ' '
  two_le_length := two_le_length_single

end Binding

namespace Part

/-- The part is for the client only: an event handler or a property. -/
def isClientOnly : Part → Bool
  | .text _ => false
  | .binding b => b.kind = .event || b.kind = .property

/-- The part is written at all: all are but event handlers, and properties only on demand. -/
def isWritten (config : Config) : Part → Bool
  | .text _ => true
  | .binding b => b.kind ≠ .event && (b.kind ≠ .property || config.serializeProperties)

/-- A part for the client is not written as long as properties are not. -/
theorem isClientOnly_of_isWritten {config : Config} (hoff : config.serializeProperties = false)
    {p : Part} (h : p.isWritten config = true) : p.isClientOnly = false := by
  cases p with
  | text tag => rfl
  | binding b => simpa [isWritten, isClientOnly, hoff] using h

end Part

namespace Tiling

variable {tiles : List (Part × Text)} {behind : Text} {p : Part} {i j : Nat}

/-- The first slots belong to the first part. -/
theorem getElem?_owners_of_lt (h : j < p.segments) :
    (owners ((p, behind) :: tiles))[j]? = some p := by
  rw [owners_cons, List.getElem?_append_left (by rwa [List.length_replicate]),
    List.getElem?_replicate_of_lt h]

/-- The slots behind those of the first part belong to the rest. -/
theorem getElem?_owners_add :
    (owners ((p, behind) :: tiles))[p.segments + j]? = (owners tiles)[j]? := by
  rw [owners_cons, List.getElem?_append_right (by rw [List.length_replicate]; omega),
    List.length_replicate, Nat.add_sub_cancel_left]

theorem getElem?_owners_of_parts (h : (parts tiles)[i]? = some (some p)) (hj : j < p.segments) :
    (owners tiles)[i + j]? = some p := by
  induction tiles generalizing i with
  | nil => cases h
  | cons tile tiles ih =>
    obtain ⟨q, behind⟩ := tile
    rcases cases_of_getElem?_parts h with ⟨rfl, rfl⟩ | ⟨k, rfl, hk⟩
    · rw [Nat.zero_add, getElem?_owners_of_lt hj]
    · rw [Nat.add_assoc, getElem?_owners_add]
      exact ih hk

end Tiling

/-- The slots of a part. -/
theorem Template.getElem?_owners {t : Template} {p : Part} {i j : Nat}
    (h : t.parts[i]? = some (some p)) (hj : j < p.segments) : t.owners[i + j]? = some p :=
  Tiling.getElem?_owners_of_parts (t.rows_tiles.2 ▸ h) hj

namespace Value

/-! ## One value at a part -/

/-- What a value adds to an attribute once a directive has been applied. -/
def pieceAt (part : Part) (v : Value) : Except ResolveError (Option Text) :=
  applied part v >>= attributePiece part

/-- Whether a value switches a boolean attribute on. -/
def switchPiece : Value → Except ResolveError Bool
  | .pending _ _ _ => .error .pendingValue
  | v => .ok v.isTruthy

/-- Whether a value switches a boolean attribute on once a directive has been applied. -/
def switchAt (part : Part) (v : Value) : Except ResolveError Bool :=
  applied part v >>= switchPiece

variable {config : Config} {part : Part} {b : Binding} {v : Value} {vs : List Value}

theorem attributeValue_cons (literal : Text) (literals : List Text) :
    attributeValue part (literal :: literals) (v :: vs) =
      pieceAt part v >>= fun piece? =>
        match piece? with
        | none => return none
        | some piece => do
          let rest ← attributeValue part literals vs
          return rest.map fun rest => literal ++ (piece ++ rest) := by
  rw [attributeValue, pieceAt]
  cases applied part v <;> rfl

theorem bindingText_boolean (hkind : b.kind = .boolean) :
    bindingText config b vs = switchAt (.binding b) (vs.head?.getD .null) >>= fun on =>
      return if on then b.leading :: b.name else [] := by
  rw [bindingText, hkind, switchAt]
  cases applied (.binding b) (vs.head?.getD .null) with
  | error e => rfl
  | ok v => cases v <;> rfl

/-- A part that is not written takes no notice of its values. -/
theorem bindingText_of_not_isWritten (h : (Part.binding b).isWritten config = false) :
    bindingText config b vs = .ok [] := by
  rw [Part.isWritten] at h
  rw [bindingText]
  cases hkind : b.kind <;> simp_all

/-- Any other part that is written is written as an attribute. -/
theorem bindingText_attribute (h : (Part.binding b).isWritten config = true)
    (hkind : b.kind ≠ .boolean) :
    bindingText config b vs = attributeValue (.binding b) b.literals vs >>= fun value =>
      return (value.map (attributeMarkup b)).getD [] := by
  rw [Part.isWritten] at h
  rw [bindingText]
  cases hb : b.kind <;> simp_all

/-- The slots of values, each with its own value. -/
theorem getElem?_slotsOf (config : Config) (vs : List Value) (k : Nat) :
    (slotsOf config vs)[k]? = vs[k]?.map fun v => ⟨v, fun tag => nodeText config v false tag⟩ := by
  induction vs generalizing k with
  | nil => rfl
  | cons v vs ih =>
    cases k with
    | zero => rfl
    | succ k => rw [slotsOf, List.getElem?_cons_succ, List.getElem?_cons_succ, ih]

/-- The slot of a value, as a template has it. -/
def slot (config : Config) (v : Value) : Slot := ⟨v, fun tag => nodeText config v false tag⟩

theorem slotsOf_cons (config : Config) (v : Value) (vs : List Value) :
    slotsOf config (v :: vs) = slot config v :: slotsOf config vs := by
  rw [slotsOf, slot]

/-! ## What keeps a template from being written -/

/-- A part cannot write one of its values. -/
inductive Slot.Fails : Part → Slot → ResolveError → Prop
  | text {tag : Text} {slot : Slot} {e : ResolveError} (h : slot.node tag = .error e) :
    Fails (.text tag) slot e
  | piece {b : Binding} {slot : Slot} {e : ResolveError}
    (h : pieceAt (.binding b) slot.value = .error e) : Fails (.binding b) slot e
  | switch {b : Binding} {slot : Slot} {e : ResolveError}
    (h : switchAt (.binding b) slot.value = .error e) : Fails (.binding b) slot e

variable {slots : List Slot} {e : ResolveError}

/-- What fails in a sequence of two is the one or the other. -/
theorem cases_of_bind_eq_error {ε α β : Type} {x : Except ε α} {f : α → Except ε β} {e : ε}
    (h : x >>= f = .error e) : x = .error e ∨ ∃ a, x = .ok a ∧ f a = .error e := by
  cases x with
  | error e' =>
    cases h
    exact .inl rfl
  | ok a => exact .inr ⟨a, rfl, h⟩

theorem exists_of_mapM_error {α β : Type} {f : α → Except ResolveError β} {l : List α}
    (h : l.mapM f = .error e) : ∃ a ∈ l, f a = .error e := by
  induction l with
  | nil => cases h
  | cons a l ih =>
    rw [List.mapM_cons] at h
    rcases cases_of_bind_eq_error h with ha | ⟨b, -, h⟩
    · exact ⟨a, List.mem_cons_self, ha⟩
    · rcases cases_of_bind_eq_error h with hl | ⟨bs, -, h⟩
      · obtain ⟨c, hc, hfails⟩ := ih hl
        exact ⟨c, List.mem_cons_of_mem a hc, hfails⟩
      · cases h

theorem exists_of_attributeValue_error {literals : List Text}
    (h : attributeValue part literals vs = .error e) : ∃ v ∈ vs, pieceAt part v = .error e := by
  induction literals generalizing vs with
  | nil => cases h
  | cons literal literals ih =>
    cases vs with
    | nil => cases h
    | cons v vs =>
      rw [attributeValue_cons] at h
      rcases cases_of_bind_eq_error h with hpiece | ⟨_ | piece, -, h⟩
      · exact ⟨v, List.mem_cons_self, hpiece⟩
      · cases h
      · rcases cases_of_bind_eq_error h with hrest | ⟨rest, -, h⟩
        · obtain ⟨w, hw, hfails⟩ := ih hrest
          exact ⟨w, List.mem_cons_of_mem v hw, hfails⟩
        · cases h

/-- What keeps an attribute from being written is one of its values. -/
theorem exists_of_bindingText_error (hwritten : (Part.binding b).isWritten config = true)
    (h : bindingText config b vs = .error e) :
    ∃ v ∈ vs, pieceAt (.binding b) v = .error e ∨ switchAt (.binding b) v = .error e := by
  by_cases hkind : b.kind = .boolean
  · rw [bindingText_boolean hkind] at h
    rcases cases_of_bind_eq_error h with hswitch | ⟨on, -, h⟩
    · cases vs with
      | nil => cases hswitch
      | cons v vs => exact ⟨v, List.mem_cons_self, .inr hswitch⟩
    · cases h
  · rw [bindingText_attribute hwritten hkind] at h
    rcases cases_of_bind_eq_error h with hvalue | ⟨value, -, h⟩
    · obtain ⟨v, hv, hpiece⟩ := exists_of_attributeValue_error hvalue
      exact ⟨v, hv, .inl hpiece⟩
    · cases h

/-- What keeps a part from being written is one of its values. -/
theorem exists_fails_of_partText (h : partText config part slots = .error e) :
    part.isWritten config = true ∧ ∃ slot ∈ slots, slot.Fails part e := by
  cases part with
  | text tag =>
    rw [partText] at h
    cases hnodes : slots.mapM fun (s : Slot) => s.node tag with
    | error e' =>
      rw [hnodes] at h
      cases h
      obtain ⟨slot, hslot, hfails⟩ := exists_of_mapM_error hnodes
      exact ⟨rfl, slot, hslot, .text hfails⟩
    | ok texts =>
      rw [hnodes] at h
      cases h
  | binding b =>
    rw [partText] at h
    cases hwritten : (Part.binding b).isWritten config with
    | false =>
      rw [bindingText_of_not_isWritten hwritten] at h
      cases h
    | true =>
      obtain ⟨v, hv, hfails⟩ := exists_of_bindingText_error hwritten h
      obtain ⟨slot, hslot, rfl⟩ := List.mem_map.mp hv
      exact ⟨rfl, slot, hslot, hfails.elim .piece .switch⟩

/-- With the right number of values nothing is left to count while the parts are written. -/
theorem templateText_eq_uncounted {t : Template} (hcount : slots.length = t.slotCount) :
    templateText config (.ok t) slots = (uncounted config t.tiles slots).map (t.head ++ ·) := by
  have henough : Template.segments t.tiles ≤ slots.length := by
    rw [hcount, Template.slotCount_eq]
  rw [templateText_ok, if_neg (not_not_intro hcount), tilesText_eq_uncounted henough]

/-- What keeps a template from being written is its number of values, or one of the values at the
part that it belongs to. -/
theorem exists_fails_of_templateText {t : Template}
    (h : templateText config (.ok t) slots = .error e) :
    e = .valueCount t.slotCount slots.length ∨
      ∃ (k : Nat) (owner : Part) (slot : Slot), t.owners[k]? = some owner ∧
        owner.isWritten config = true ∧ slots[k]? = some slot ∧ slot.Fails owner e := by
  by_cases hcount : slots.length = t.slotCount
  · rw [templateText_eq_uncounted hcount] at h
    cases htext : uncounted config t.tiles slots with
    | ok text =>
      rw [htext] at h
      cases h
    | error e' =>
      rw [htext] at h
      cases h
      obtain ⟨i, part, hpart, hfails⟩ := exists_part_of_uncounted htext
      rw [← t.rows_tiles.2] at hpart
      obtain ⟨hwritten, slot, hslot, hfails⟩ := exists_fails_of_partText hfails
      obtain ⟨j, hj⟩ := List.mem_iff_getElem?.mp hslot
      rw [List.getElem?_take] at hj
      split at hj
      · next hlt =>
        rw [List.getElem?_drop] at hj
        exact .inr ⟨i + j, part, slot, Template.getElem?_owners hpart hlt, hwritten, hj, hfails⟩
      · cases hj
  · rw [templateText, if_pos hcount] at h
    cases h
    exact .inl rfl

end Value

namespace TemplateResult

/-- The template with its values as one value. -/
def value (r : TemplateResult) : Value := .template r.template r.values

theorem nodeText_value {config : Config} (r : TemplateResult) (result : Bool) (tag : Text) :
    Value.nodeText config r.value result tag = r.resolve config := by
  rw [value, Value.nodeText, resolve]

end TemplateResult

end LiveMarkup
