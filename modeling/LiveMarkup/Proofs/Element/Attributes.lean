import LiveMarkup.Element

/-!
# Attributes of elements

What becomes of the attributes of a tag on their way into a render function: an attribute that no
other one of the tag is mistaken for is read by its type and kept under its declared name, and it
is the same in all that the render function can look at.
-/

namespace LiveMarkup

namespace Declaration

variable {d : Declaration}

/-! ## Names -/

theorem sameLetters_of_attrType? {name declared : Text} {ty : AttrType}
    (h : d.attrType? name = some (declared, ty)) : Text.sameLetters declared name = true := by
  have hfound := List.find?_some h
  exact hfound

theorem attrType?_declared {name declared : Text} {ty : AttrType}
    (h : d.attrType? name = some (declared, ty)) : d.attrType? declared ≠ none := by
  intro hnone
  have hmem : (declared, ty) ∈ d.attrTypes := List.mem_of_find?_eq_some h
  have hdiffer := List.find?_eq_none.mp hnone _ hmem
  exact hdiffer (beq_self_eq_true _)

/-- Two names in lower case are not taken for one another. -/
theorem coerceAttr_fst_ne {name other declared : Text} {ty : AttrType}
    (h : d.attrType? name = some (declared, ty)) (hname : Text.lower name = name)
    (hother : Text.lower other = other) (hne : other ≠ name) (raw : Option Text) :
    (d.coerceAttr other raw).1 ≠ declared := by
  intro heq
  unfold coerceAttr at heq
  split at heq
  · next declared' ty' hfound =>
    subst heq
    have hsame := sameLetters_of_attrType? h
    have hsame' := sameLetters_of_attrType? hfound
    rw [Text.sameLetters, beq_iff_eq] at hsame hsame'
    exact hne (by rw [← hother, ← hsame', hsame, hname])
  · next hnone =>
    subst heq
    exact attrType?_declared h hnone

/-! ## Reading -/

theorem get?_coerceEach_of_ne (attrs : Keyed Json) {raw : List (Text × Text)} {key : Text}
    (h : ∀ a ∈ raw, (d.coerceAttr a.1 (some a.2)).1 ≠ key) :
    Keyed.get? (d.coerceEach attrs raw).1 key = Keyed.get? attrs key := by
  induction raw generalizing attrs with
  | nil => rfl
  | cons a raw ih =>
    rw [List.forall_mem_cons] at h
    have hrest := ih (Keyed.insert attrs (d.coerceAttr a.1 (some a.2)).1
      (d.coerceAttr a.1 (some a.2)).2.1) h.2
    rw [Keyed.get?_insert, if_neg h.1] at hrest
    exact hrest

/-- An attribute that no other one is mistaken for is kept as it is read. -/
theorem get?_coerceEach {attrs : Keyed Json} {raw : List (Text × Text)} {name value : Text}
    (hmem : (name, value) ∈ raw) (hkeys : (Keyed.keys raw).Nodup)
    (hothers : ∀ a ∈ raw, a.1 ≠ name →
      (d.coerceAttr a.1 (some a.2)).1 ≠ (d.coerceAttr name (some value)).1) :
    Keyed.get? (d.coerceEach attrs raw).1 (d.coerceAttr name (some value)).1 =
      some (d.coerceAttr name (some value)).2.1 := by
  induction raw generalizing attrs with
  | nil => cases hmem
  | cons a raw ih =>
    rw [List.forall_mem_cons] at hothers
    obtain ⟨hkey, hkeys⟩ := List.nodup_cons.mp hkeys
    rcases List.mem_cons.mp hmem with rfl | hmem
    · have hrest : ∀ b ∈ raw,
          (d.coerceAttr b.1 (some b.2)).1 ≠ (d.coerceAttr name (some value)).1 := by
        intro b hb
        refine hothers.2 b hb ?_
        intro heq
        have hmem : b.1 ∈ Keyed.keys raw := List.mem_map_of_mem hb
        exact hkey (heq ▸ hmem)
      have hget := get?_coerceEach_of_ne (Keyed.insert attrs
        (d.coerceAttr name (some value)).1 (d.coerceAttr name (some value)).2.1) hrest
      rw [Keyed.get?_insert, if_pos rfl] at hget
      exact hget
    · exact ih hmem hkeys hothers.2

theorem get?_fillEach {attrs : Keyed Json} {types : List (Text × AttrType)} {key : Text} {j : Json}
    (h : Keyed.get? attrs key = some j) : Keyed.get? (d.fillEach attrs types).1 key = some j := by
  induction types generalizing attrs with
  | nil => exact h
  | cons a types ih =>
    obtain ⟨declared, ty⟩ := a
    rw [fillEach]
    split
    · exact ih h
    · next hmissing =>
      have hne : declared ≠ key := by
        rintro rfl
        exact hmissing (by rw [Keyed.has, h]; rfl)
      exact ih (by rw [Keyed.get?_insert, if_neg hne, h])

/-- A declared attribute of a tag whose attributes have different names in lower case is read by its
type. -/
theorem get?_coerceAttrs {raw : Attributes} {name value declared : Text} {ty : AttrType}
    (hmem : (name, value) ∈ raw) (hkeys : (Keyed.keys raw).Nodup)
    (hlower : ∀ a ∈ raw, Text.lower a.1 = a.1) (h : d.attrType? name = some (declared, ty)) :
    Keyed.get? (d.coerceAttrs raw).1 declared = some (ty.parse (some value)) := by
  have hread : d.coerceAttr name (some value) = (declared, ty.parse (some value),
      ty.validate (d.context declared) (ty.parse (some value))) := by
    rw [coerceAttr, h]
  have hget : Keyed.get? (d.coerceEach [] raw).1 (d.coerceAttr name (some value)).1 =
      some (d.coerceAttr name (some value)).2.1 := by
    refine get?_coerceEach hmem hkeys fun a ha hne => ?_
    rw [hread]
    exact coerceAttr_fst_ne h (hlower _ hmem) (hlower _ ha) hne _
  rw [hread] at hget
  exact get?_fillEach hget

end Declaration

/-! ## Views -/

namespace RenderState

variable {H : Type}

theorem attrs_initialized (s : RenderState H) (h : Hook H) : (s.initialized h).attrs = s.attrs := by
  unfold initialized
  split
  · rfl
  · rfl

/-- No hook changes the attributes. -/
theorem attrs_answer (s : RenderState H) (h : Hook H) : (s.answer h).2.attrs = s.attrs := by
  cases h with
  | view => rfl
  | setState name value => rfl
  | useState init => rfl
  | useInt init => rfl
  | useCell init => rfl
  | readCell cell => rfl
  | writeCell cell n => rfl
  | useMemo deps compute =>
    simp only [answer]
    split
    · rfl
    · rfl
  | useCallback deps body =>
    simp only [answer]
    split
    · rfl
    · rfl
  | useEffect kind deps effect =>
    simp only [answer]
    split
    · rfl
    · split
      · rfl
      · rfl

end RenderState

namespace Hook

variable {H : Type}

/-- The view that a hook gives, if it gives one. -/
def seen : (h : Hook H) → h.Answer → List View
  | .view, v => [v]
  | .setState _ _, _ | .useState _, _ | .useInt _, _ | .useCell _, _ | .readCell _, _
  | .writeCell _ _, _ | .useMemo _ _, _ | .useCallback _ _, _ | .useEffect _ _ _, _ => []

end Hook

namespace Render

variable {H : Type}

/-- All that a render function is given to look at when it is run. -/
def views : Render H → RenderState H → List View
  | .finish _, _ => []
  | .hook h next, s =>
    let (a, s) := (s.initialized h).answer h
    h.seen a ++ views (next a) s
  | .peek next, s => views (next s.host) s
  | .poke change next, s => views next { s with host := change s.host }
  | .perform p next, s => views next { s with host := (p.eval s.host).2 }

/-- A render function sees the attributes that it was started with. -/
theorem attrs_of_mem_views {r : Render H} {s : RenderState H} {v : View} (h : v ∈ r.views s) :
    v.attrs = s.attrs := by
  induction r generalizing s with
  | finish result => cases h
  | hook k next ih =>
    rw [views, List.mem_append] at h
    rcases h with h | h
    · cases k with
      | view => rw [List.mem_singleton.mp h]; rfl
      | _ => cases h
    · rw [ih _ h, RenderState.attrs_answer, RenderState.attrs_initialized]
  | peek next ih => exact ih _ h
  | poke change next ih =>
    rw [views] at h
    exact (ih h).trans rfl
  | perform p next ih =>
    rw [views] at h
    exact (ih h).trans rfl

end Render

end LiveMarkup
