import LiveMarkup.Escape
import LiveMarkup.Proofs.Text.Spans
import Mathlib.Logic.Function.Basic

/-!
# Entities

Text and attribute values are written with entities for five characters. That is a code for texts:
`decodeEntities` reads it back in one pass from the start, and it is a code character by character,
so a text may be escaped in pieces. What is written holds no quotes and no angle brackets, and each
ampersand in it starts an entity, so nothing that stood in the text can be taken for markup or for an
entity (`escape_lossless`).
-/

namespace LiveMarkup

namespace Text

variable {c : Char} {s t a b : Text} {e : Text × Char}

/-! ## One character -/

/-- The entities, each with the character that it stands for. -/
def entities : List (Text × Char) :=
  [("&quot;".toList, '"'), ("&#x27;".toList, '\''), ("&amp;".toList, '&'), ("&lt;".toList, '<'),
    ("&gt;".toList, '>')]

/-- An entity begins with an ampersand and has no other. -/
theorem exists_name_of_mem_entities (h : e ∈ entities) : ∃ name, e.1 = '&' :: name ∧ '&' ∉ name := by
  unfold entities at h
  simp only [List.mem_cons, List.not_mem_nil, or_false] at h
  rcases h with rfl | rfl | rfl | rfl | rfl
  · exact ⟨"quot;".toList, rfl, by decide⟩
  · exact ⟨"#x27;".toList, rfl, by decide⟩
  · exact ⟨"amp;".toList, rfl, by decide⟩
  · exact ⟨"lt;".toList, rfl, by decide⟩
  · exact ⟨"gt;".toList, rfl, by decide⟩

/-- A character stands as its entity, or it has none and stands as itself. -/
theorem cases_of_entity (c : Char) :
    (entity c, c) ∈ entities ∨ c ∉ entities.map Prod.snd ∧ entity c = [c] := by
  by_cases h : c ∈ entities.map Prod.snd
  · left
    unfold entities at h
    simp only [List.map_cons, List.map_nil, List.mem_cons, List.not_mem_nil, or_false] at h
    rcases h with rfl | rfl | rfl | rfl | rfl <;> decide
  · right
    refine ⟨h, ?_⟩
    unfold entities at h
    simp only [List.map_cons, List.map_nil, List.mem_cons, List.not_mem_nil, or_false,
      not_or] at h
    obtain ⟨hdouble, hsingle, hampersand, hless, hgreater⟩ := h
    unfold entity
    rw [if_neg hdouble, if_neg hsingle, if_neg hampersand, if_neg hless, if_neg hgreater]

theorem not_mem_entity {c d : Char} (h : d ∈ ['"', '\'', '<', '>']) : d ∉ entity c := by
  have hapart : d ∈ entities.map Prod.snd ∧ ∀ e ∈ entities, d ∉ e.1 := by
    simp only [List.mem_cons, List.not_mem_nil, or_false] at h
    rcases h with rfl | rfl | rfl | rfl <;> decide
  rcases cases_of_entity c with hc | ⟨hc, hself⟩
  · exact hapart.2 _ hc
  · rw [hself, List.mem_singleton]
    rintro rfl
    exact hc hapart.1

/-- An ampersand in what a character becomes starts its entity. -/
theorem mem_entities_of_ampersand (h : entity c = a ++ '&' :: b) : ('&' :: b, c) ∈ entities := by
  rcases cases_of_entity c with hc | ⟨hc, hself⟩
  · obtain ⟨name, hname, honce⟩ := exists_name_of_mem_entities hc
    cases a with
    | nil => rwa [h] at hc
    | cons d a =>
      obtain ⟨-, rfl⟩ := List.cons.inj (h.symm.trans hname)
      exact absurd (List.mem_append_right a List.mem_cons_self) honce
  · rw [hself] at h
    cases a with
    | nil =>
      obtain rfl := (List.cons.inj h).1
      exact absurd (by decide) hc
    | cons d a => simp at h

/-! ## All characters -/

theorem withEntities_cons : withEntities (c :: t) = entity c ++ withEntities t :=
  List.flatMap_cons

theorem withEntities_append : withEntities (s ++ t) = withEntities s ++ withEntities t :=
  List.flatMap_append

/-- A text in which no character has an entity is written as it is. -/
theorem withEntities_of_any (h : t.any hasEntity = false) : withEntities t = t := by
  induction t with
  | nil => rfl
  | cons c t ih =>
    rw [List.any_cons, Bool.or_eq_false_iff] at h
    have hself : entity c = [c] := by simpa [hasEntity] using h.1
    rw [withEntities_cons, hself, ih h.2, List.singleton_append]

/-- It makes no difference that a text without characters to be escaped is not gone through. -/
theorem escapeEntities_eq (t : Text) : escapeEntities t = withEntities t := by
  unfold escapeEntities
  split
  · rfl
  · next hany => exact (withEntities_of_any (Bool.eq_false_iff.mpr hany)).symm

/-- Entities leave no quotes and no angle brackets. -/
theorem not_mem_escapeEntities {d : Char} (h : d ∈ ['"', '\'', '<', '>']) (t : Text) :
    d ∉ escapeEntities t := by
  rw [escapeEntities_eq]
  intro hmem
  obtain ⟨c, -, hc⟩ := List.mem_flatMap.mp hmem
  exact not_mem_entity h hc

/-- Each ampersand in what a text becomes starts an entity. -/
theorem exists_entity_prefix (h : withEntities t = a ++ '&' :: b) :
    ∃ e ∈ entities, e.1 <+: '&' :: b := by
  induction t generalizing a with
  | nil => cases a <;> cases h
  | cons c t ih =>
    rw [withEntities_cons] at h
    rcases List.append_eq_append_iff.mp h with ⟨later, -, hlater⟩ | ⟨_ | ⟨d, name⟩, hc, hrest⟩
    · exact ih hlater
    · exact ih (a := []) hrest.symm
    · rw [List.cons_append] at hrest
      obtain ⟨rfl, rfl⟩ := List.cons.inj hrest
      exact ⟨_, mem_entities_of_ampersand hc, List.prefix_append _ _⟩

/-! ## Decoding -/

/-- The character whose entity a text starts with, and the text behind the entity. -/
def leadingEntity? (t : Text) : Option (Char × Text) :=
  entities.findSome? fun e => (after? e.1 t).map fun rest => (e.2, rest)

theorem exists_of_leadingEntity? (h : leadingEntity? t = some (c, s)) :
    ∃ e ∈ entities, e.2 = c ∧ t = e.1 ++ s := by
  obtain ⟨e, he, hafter⟩ := List.exists_of_findSome?_eq_some h
  obtain ⟨rest, hrest, heq⟩ := Option.map_eq_some_iff.mp hafter
  obtain ⟨rfl, rfl⟩ := Prod.mk.inj heq
  exact ⟨e, he, rfl, eq_append_of_after? hrest⟩

theorem length_of_leadingEntity? (h : leadingEntity? t = some (c, s)) : s.length < t.length := by
  obtain ⟨e, he, -, rfl⟩ := exists_of_leadingEntity? h
  obtain ⟨name, hname, -⟩ := exists_name_of_mem_entities he
  rw [hname, List.length_append, List.length_cons]
  omega

/-- `t` with its entities decoded, in one pass from the start. -/
def decodeEntities (t : Text) : Text :=
  match _ : leadingEntity? t with
  | some (c, rest) => c :: decodeEntities rest
  | none =>
    match t with
    | [] => []
    | c :: rest => c :: decodeEntities rest
termination_by t.length
decreasing_by
  · exact length_of_leadingEntity? ‹_›
  · simp only [List.length_cons]
    omega

/-- An entity is found where it stands. -/
theorem leadingEntity?_of_mem (h : e ∈ entities) (t : Text) :
    leadingEntity? (e.1 ++ t) = some (e.2, t) := by
  unfold entities at h
  simp only [List.mem_cons, List.not_mem_nil, or_false] at h
  rcases h with rfl | rfl | rfl | rfl | rfl <;> rfl

theorem leadingEntity?_of_ne (h : c ≠ '&') (t : Text) : leadingEntity? (c :: t) = none := by
  cases hlead : leadingEntity? (c :: t) with
  | none => rfl
  | some found =>
    obtain ⟨e, he, -, heq⟩ := exists_of_leadingEntity? hlead
    obtain ⟨name, hname, -⟩ := exists_name_of_mem_entities he
    rw [hname, List.cons_append] at heq
    exact absurd (List.cons.inj heq).1 h

/-- What a character becomes is read back as the character, whatever follows. -/
theorem decodeEntities_entity (c : Char) (t : Text) :
    decodeEntities (entity c ++ t) = c :: decodeEntities t := by
  rcases cases_of_entity c with hc | ⟨hc, hself⟩
  · have hfound : leadingEntity? (entity c ++ t) = some (c, t) := leadingEntity?_of_mem hc t
    rw [decodeEntities]
    split
    · next d rest hlead =>
      obtain ⟨rfl, rfl⟩ := Prod.mk.inj (Option.some.inj (hlead.symm.trans hfound))
      rfl
    · next hlead => cases hlead.symm.trans hfound
  · have hne : c ≠ '&' := by
      rintro rfl
      exact hc (by decide)
    rw [hself, List.singleton_append, decodeEntities]
    split
    · next hlead => cases hlead.symm.trans (leadingEntity?_of_ne hne t)
    · rfl

theorem decodeEntities_withEntities (s t : Text) :
    decodeEntities (withEntities s ++ t) = s ++ decodeEntities t := by
  induction s with
  | nil => rfl
  | cons c s ih =>
    rw [withEntities_cons, List.append_assoc, decodeEntities_entity, ih, List.cons_append]

theorem decodeEntities_escapeEntities (t : Text) : decodeEntities (escapeEntities t) = t := by
  have hnil : decodeEntities [] = [] := by
    rw [decodeEntities]
    rfl
  rw [escapeEntities_eq, ← List.append_nil (withEntities t), decodeEntities_withEntities, hnil,
    List.append_nil]

/-! ## Texts and attribute values -/

theorem escape_of_ne {context : EscapeContext} (h : context ≠ .rawText) :
    escape context = escapeEntities := by
  cases context
  · rfl
  · rfl
  · contradiction

/-- Escaping for text and for attribute values is a lossless code. What it writes holds no quotes
and no angle brackets, each ampersand in it starts one of the entities, and decoding these gives the
text back. No two texts are written alike, texts that stand one behind the other are escaped one
behind the other, and what is given back unchanged is what going through it character by character
would have written. -/
theorem escape_lossless {context : EscapeContext} (hcontext : context ≠ .rawText) :
    (∀ s, (∀ c ∈ ['"', '\'', '<', '>'], c ∉ escape context s) ∧
      (∀ a b, escape context s = a ++ '&' :: b → ∃ e ∈ entities, e.1 <+: '&' :: b) ∧
      decodeEntities (escape context s) = s ∧ escape context s = withEntities s) ∧
    Function.Injective (escape context) ∧
    ∀ s t, escape context (s ++ t) = escape context s ++ escape context t := by
  rw [escape_of_ne hcontext]
  refine ⟨fun s => ⟨fun c hc => ?_, fun a b h => ?_, ?_, ?_⟩, ?_, fun s t => ?_⟩
  · exact not_mem_escapeEntities hc s
  · rw [escapeEntities_eq] at h
    exact exists_entity_prefix h
  · exact decodeEntities_escapeEntities s
  · exact escapeEntities_eq s
  · exact Function.LeftInverse.injective decodeEntities_escapeEntities
  · rw [escapeEntities_eq, escapeEntities_eq, escapeEntities_eq, withEntities_append]

/-- Text that looks like an entity is read back as it was. -/
theorem escape_lossless_attribute : EscapeContext.attribute ≠ .rawText ∧
    escape .attribute "&lt; 'n' &".toList = "&amp;lt; &#x27;n&#x27; &amp;".toList ∧
    decodeEntities "&amp;lt; &#x27;n&#x27; &amp;".toList = "&lt; 'n' &".toList := by
  have hcontext : EscapeContext.attribute ≠ .rawText := by decide
  have hwritten : escape .attribute "&lt; 'n' &".toList =
    "&amp;lt; &#x27;n&#x27; &amp;".toList := by decide
  obtain ⟨-, -, hdecoded, -⟩ := (escape_lossless hcontext).1 "&lt; 'n' &".toList
  exact ⟨hcontext, hwritten, hwritten ▸ hdecoded⟩

end Text

end LiveMarkup
