import LiveMarkup.Proofs.Template.ClientOnly

/-!
# Templates in templates

A template that stands in the text of another one, be it in a list in a list, is written as it is by
itself, so it might as well have been resolved before and put there as markup. Where it cannot be
resolved, the template around it cannot either, and unless something in front of it has failed
before, it fails with the same error (`TemplateResult.resolve_nested`).
-/

namespace LiveMarkup

/-- A place in a value: the value itself, or a place in an item of the list that it is. -/
inductive ListPlace where
  | self
  | item (before : List Value) (place : ListPlace) (after : List Value)

namespace ListPlace

/-- A value with `v` at the place. -/
def fill : ListPlace → Value → Value
  | .self, v => v
  | .item before place after, v => .list (before ++ place.fill v :: after)

/-- All items in front of the place, in each of the lists around it, are written in the text of the
element `tag`. -/
def Reached (config : Config) (tag : Text) : ListPlace → Prop
  | .self => True
  | .item before place _ =>
    (∀ v ∈ before, ∃ text, Value.nodeText config v false tag = .ok text) ∧ place.Reached config tag

end ListPlace

namespace Value

variable {config : Config} {tag : Text} {e : ResolveError} {v v' : Value}

/-! ## Lists -/

/-- Items that are written leave it to those behind them what becomes of the list. -/
theorem nodeTextAll_append_of_written {before : List Value}
    (h : ∀ v ∈ before, ∃ text, nodeText config v false tag = .ok text) (rest : List Value) :
    ∃ text, nodeTextAll config (before ++ rest) tag =
      (nodeTextAll config rest tag).map (text ++ ·) := by
  induction before with
  | nil =>
    refine ⟨[], ?_⟩
    rw [List.nil_append]
    cases nodeTextAll config rest tag <;> rfl
  | cons v before ih =>
    rw [List.forall_mem_cons] at h
    obtain ⟨first, hfirst⟩ := h.1
    obtain ⟨text, hrest⟩ := ih h.2
    refine ⟨first ++ text, ?_⟩
    rw [List.cons_append, nodeTextAll, hfirst, hrest]
    cases nodeTextAll config rest tag with
    | error e => rfl
    | ok others => exact congrArg Except.ok (List.append_assoc first text others).symm

theorem nodeTextAll_replace (h : nodeText config v false tag = nodeText config v' false tag)
    (before after : List Value) : nodeTextAll config (before ++ v :: after) tag =
      nodeTextAll config (before ++ v' :: after) tag := by
  induction before with
  | nil => rw [List.nil_append, List.nil_append, nodeTextAll, nodeTextAll, h]
  | cons u before ih => rw [List.cons_append, List.cons_append, nodeTextAll, nodeTextAll, ih]

/-! ## Places in lists -/

/-- Values that are written the same by themselves are written the same at any place. -/
theorem nodeText_fill (place : ListPlace)
    (h : nodeText config v false tag = nodeText config v' false tag) :
    nodeText config (place.fill v) false tag = nodeText config (place.fill v') false tag := by
  induction place with
  | self => exact h
  | item before place after ih =>
    rw [ListPlace.fill, ListPlace.fill, nodeText, nodeText, nodeTextAll_replace ih]

/-- What fails at a place that is reached fails as it does by itself. -/
theorem nodeText_fill_of_error {place : ListPlace} (hreached : place.Reached config tag)
    (h : nodeText config v false tag = .error e) :
    nodeText config (place.fill v) false tag = .error e := by
  induction place with
  | self => exact h
  | item before place after ih =>
    obtain ⟨hbefore, hplace⟩ := hreached
    obtain ⟨text, htext⟩ := nodeTextAll_append_of_written hbefore (place.fill v :: after)
    have hitem : nodeTextAll config (place.fill v :: after) tag = .error e := by
      rw [nodeTextAll, ih hplace]
    rw [ListPlace.fill, nodeText, htext, hitem]
    rfl

/-! ## Parts in order -/

open Tiling (parts)

/-- A part that cannot be written keeps the whole from being written, and it is the part that is
told of when all parts in front of it are written. -/
theorem uncounted_of_part {tiles : List (Part × Text)} {slots : List Slot} {p : Part} {k : Nat}
    (hpart : (parts tiles)[k]? = some (some p))
    (hbefore : ∀ i q, (parts tiles)[i]? = some (some q) → i < k →
      ∃ text, partText config q ((slots.drop i).take q.segments) = .ok text)
    (hfails : partText config p ((slots.drop k).take p.segments) = .error e) :
    uncounted config tiles slots = .error e := by
  induction tiles generalizing slots k with
  | nil => cases hpart
  | cons tile tiles ih =>
    obtain ⟨q, behind⟩ := tile
    rcases Tiling.cases_of_getElem?_parts hpart with ⟨rfl, rfl⟩ | ⟨m, rfl, hm⟩
    · rw [List.drop_zero] at hfails
      rw [uncounted, hfails]
      rfl
    · have hpos := q.segments_pos
      obtain ⟨text, htext⟩ := hbefore 0 q rfl (by omega)
      rw [List.drop_zero] at htext
      have hrest : uncounted config tiles (slots.drop q.segments) = .error e := by
        refine ih hm (fun i p' hp' hi => ?_) ?_
        · rw [List.drop_drop]
          exact hbefore _ p' (Tiling.getElem?_parts_add.trans hp') (by omega)
        · rwa [List.drop_drop]
      rw [uncounted, htext, hrest]
      rfl

/-- All that comes before a place in a template is written: the number of values is right, the parts
in front of its part are written with the values in front, and so are the items in front of it in
the lists around it. -/
structure WrittenBefore (config : Config) (t : Template) (us ws : List Value) (tag : Text)
    (place : ListPlace) : Prop where
  count : us.length + 1 + ws.length = t.slotCount
  parts : ∀ i p, t.parts[i]? = some (some p) → i < us.length →
    ∃ text, partText config p (((slotsOf config us).drop i).take p.segments) = .ok text
  items : place.Reached config tag

/-- The slots of a part in front are slots of the values in front. -/
theorem take_drop_slotsOf (config : Config) {us : List Value} (rest : List Value) {i n : Nat}
    (h : i + n ≤ us.length) :
    ((slotsOf config (us ++ rest)).drop i).take n = ((slotsOf config us).drop i).take n := by
  have hlength := length_slotsOf config us
  rw [slotsOf_append, List.drop_append_of_le_length (by omega),
    List.take_append_of_le_length (by rw [List.length_drop]; omega)]

theorem templateText_of_error {t : Template} {us ws : List Value} {place : ListPlace}
    (hpart : t.parts[us.length]? = some (some (.text tag)))
    (hbefore : WrittenBefore config t us ws tag place)
    (hfails : nodeText config v false tag = .error e) :
    templateText config (.ok t) (slotsOf config (us ++ place.fill v :: ws)) = .error e := by
  have hcount : (slotsOf config (us ++ place.fill v :: ws)).length = t.slotCount := by
    rw [length_slotsOf, List.length_append, List.length_cons, ← hbefore.count]
    omega
  have hslot : ((slotsOf config (us ++ place.fill v :: ws)).drop us.length).take 1 =
      [slot config (place.fill v)] := by
    rw [slotsOf_append, ← length_slotsOf config us, List.drop_left, slotsOf_cons]
    rfl
  have hnode : (slot config (place.fill v)).node tag = .error e :=
    nodeText_fill_of_error hbefore.items hfails
  have htext : uncounted config t.tiles (slotsOf config (us ++ place.fill v :: ws)) = .error e := by
    refine uncounted_of_part (t.rows_tiles.2 ▸ hpart) (fun i p hp hi => ?_) ?_
    · rw [← t.rows_tiles.2] at hp
      have hle : i + p.segments ≤ us.length := by
        obtain ⟨_, _, _, laid⟩ := t.laid
        refine Nat.le_of_not_lt fun hlt => ?_
        have := laid.le_of_getElem? hp hpart hlt
        omega
      rw [take_drop_slotsOf config _ hle]
      exact hbefore.parts i p hp hi
    · rw [Part.segments, hslot, partText, List.mapM_cons, hnode]
      rfl
  rw [templateText_eq_uncounted hcount, htext]
  rfl

end Value

namespace TemplateResult

/-! ## Templates in text -/

/-- Resolving is compositional. A template at any place of the text of another one can be replaced
by the markup that it resolves to, and nothing changes; when it cannot be resolved and everything
before it is written, its error is that of the template around it. -/
theorem resolve_nested (config : Config) {t : Template} {us ws : List Value} {tag : Text}
    (place : ListPlace) (r : TemplateResult)
    (hpart : t.parts[us.length]? = some (some (.text tag))) :
    (∀ s, r.resolve config = .ok s →
      resolve config ⟨.ok t, us ++ place.fill r.value :: ws⟩ =
        resolve config ⟨.ok t, us ++ place.fill (.raw s) :: ws⟩) ∧
    ∀ e, r.resolve config = .error e → Value.WrittenBefore config t us ws tag place →
      resolve config ⟨.ok t, us ++ place.fill r.value :: ws⟩ = .error e := by
  have howner : t.owners[us.length]? = some (.text tag) :=
    Template.getElem?_owners (j := 0) hpart Nat.one_pos
  refine ⟨fun s hresolve => ?_, fun e hresolve hbefore => ?_⟩
  · refine Value.templateText_congr_at fun owner howner' => ?_
    obtain rfl := Option.some.inj (howner.symm.trans howner')
    have hnode : Value.nodeText config r.value false tag =
        Value.nodeText config (.raw s) false tag := by
      rw [nodeText_value, hresolve, Value.nodeText]
    exact Value.nodeText_fill place hnode
  · refine Value.templateText_of_error hpart hbefore ?_
    rw [nodeText_value, hresolve]

/-- A bold text. -/
def bold : Template := Tiling.template ⟨"<b>".toList, [(.text ['b'], "</b>".toList)]⟩

/-- A place between two items of a list, in a list that starts with a text. -/
def listed : ListPlace := .item [.string ['-']] (.item [.null] .self [.bool true]) []

theorem writtenBefore_listed :
    Value.WrittenBefore {} Template.classed [.string ['x'], .null] [] ['p'] listed := by
  refine ⟨rfl, fun i p hp hi => ?_, ?_⟩
  · -- the first two places are those of the class
    obtain rfl | rfl : i = 0 ∨ i = 1 := by
      simp only [List.length_cons, List.length_nil] at hi
      omega
    · obtain rfl := Option.some.inj (Option.some.inj hp)
      exact ⟨_, rfl⟩
    · cases hp
  · refine ⟨fun v hv => ?_, fun v hv => ?_, trivial⟩
    · obtain rfl := List.mem_singleton.mp hv
      exact ⟨_, rfl⟩
    · obtain rfl := List.mem_singleton.mp hv
      exact ⟨_, rfl⟩

/-- A bold text in the lists is written as markup, and a bold text without its value is the error of
the paragraph around it. -/
theorem resolve_nested_listed :
    Template.classed.parts[2]? = some (some (.text ['p'])) ∧
    resolve {} ⟨.ok bold, [.string ['<']]⟩ = .ok "<b>&lt;</b>".toList ∧
    resolve {} ⟨.ok Template.classed,
        [.string ['x'], .null, listed.fill (value ⟨.ok bold, [.string ['<']]⟩)]⟩ =
      resolve {} ⟨.ok Template.classed,
        [.string ['x'], .null, listed.fill (.raw "<b>&lt;</b>".toList)]⟩ ∧
    resolve {} ⟨.ok Template.classed,
        [.string ['x'], .null, listed.fill (value ⟨.ok bold, [.string ['<']]⟩)]⟩ =
      .ok "<p class=\"a x  c\">-<b>&lt;</b>true</p>".toList ∧
    resolve {} ⟨.ok bold, []⟩ = .error (.valueCount 1 0) ∧
    Value.WrittenBefore {} Template.classed [.string ['x'], .null] [] ['p'] listed ∧
    resolve {} ⟨.ok Template.classed,
        [.string ['x'], .null, listed.fill (value ⟨.ok bold, []⟩)]⟩ =
      .error (.valueCount 1 0) := by
  have hpart : Template.classed.parts[[Value.string ['x'], .null].length]? =
      some (some (.text ['p'])) := rfl
  have hbold : resolve {} ⟨.ok bold, [.string ['<']]⟩ = .ok "<b>&lt;</b>".toList := rfl
  have hfails : resolve {} ⟨.ok bold, []⟩ = .error (.valueCount 1 0) := rfl
  have hwritten : resolve {} ⟨.ok Template.classed,
      [.string ['x'], .null, listed.fill (value ⟨.ok bold, [.string ['<']]⟩)]⟩ =
        .ok "<p class=\"a x  c\">-<b>&lt;</b>true</p>".toList := rfl
  refine ⟨hpart, hbold, ?_, hwritten, hfails, writtenBefore_listed, ?_⟩
  · exact (resolve_nested {} listed ⟨.ok bold, [.string ['<']]⟩ hpart).1 _ hbold
  · exact (resolve_nested {} listed ⟨.ok bold, []⟩ hpart).2 _ hfails writtenBefore_listed

end TemplateResult

end LiveMarkup
