import LiveMarkup.Element.AttrType
import LiveMarkup.Proofs.Json.Weight
import LiveMarkup.Resolve

/-!
# JSON in attributes

A JSON value is written into an attribute with single quotes for double ones, and double quotes for
single ones are put back before it is read. What was an apostrophe comes back as a quote too.
-/

namespace LiveMarkup.Json

/-! ## Values without apostrophes -/

mutual

/-- No string and no key in the value has a `c`. -/
def FreeOf (c : Char) : Json → Prop
  | .str s => c ∉ s
  | .arr items => FreeOfAll c items
  | .obj fields => FreeOfFields c fields
  | .null | .bool _ | .int _ | .float _ => True

/-- No string and no key in the items has a `c`. -/
def FreeOfAll (c : Char) : List Json → Prop
  | [] => True
  | j :: js => FreeOf c j ∧ FreeOfAll c js

/-- No string and no key in the members has a `c`. -/
def FreeOfFields (c : Char) : List (Text × Json) → Prop
  | [] => True
  | (key, j) :: fields => c ∉ key ∧ FreeOf c j ∧ FreeOfFields c fields

end

theorem apostrophe_mem_escapeChar {c : Char} : '\'' ∈ escapeChar c ↔ c = '\'' := by
  rcases escapeChar_cases c with ⟨d, hd, heq⟩ | ⟨hcontrol, heq⟩ | ⟨-, -, -, heq⟩
  · have hshort : ∀ p ∈ shortEscapes, p.1 ≠ '\'' ∧ p.2 ≠ '\'' := by decide
    obtain ⟨hd, hc⟩ := hshort _ hd
    simp [heq, Ne.symm hd, hc]
  · have hne : c ≠ '\'' := by
      rintro rfl
      exact absurd hcontrol (by decide)
    have hdigit : ∀ n < 16, '\'' ≠ hexDigit n := by decide
    simp [heq, hne, hdigit _ (show c.toNat / 16 < 16 by omega),
      hdigit _ (show c.toNat % 16 < 16 by omega)]
  · rw [heq, List.mem_singleton, eq_comm]

theorem apostrophe_mem_quoted {s : Text} : '\'' ∈ quoted s ↔ '\'' ∈ s := by
  simp [quoted, apostrophe_mem_escapeChar]

theorem apostrophe_not_mem_ofInt (n : Int) : '\'' ∉ Text.ofInt n := by
  intro h
  have hlight := List.countP_eq_zero.mp (textWeight_ofInt n) _ h
  exact hlight rfl

mutual

/-- Apostrophes in the text of a plain value are those of its strings and keys. -/
theorem apostrophe_not_mem_text {j : Json} (h : j.Plain) : '\'' ∉ j.text ↔ j.FreeOf '\'' := by
  cases j with
  | null => simp [text, FreeOf]
  | bool b => cases b <;> simp [text, FreeOf]
  | int n => simp [text, FreeOf, apostrophe_not_mem_ofInt]
  | float x => exact absurd h id
  | str s => rw [text, FreeOf, apostrophe_mem_quoted]
  | arr items => simp [text, FreeOf, apostrophe_not_mem_itemsText h]
  | obj fields => simp [text, FreeOf, apostrophe_not_mem_fieldsText h.2]

theorem apostrophe_not_mem_itemsText {items : List Json} (h : PlainAll items) :
    '\'' ∉ itemsText items ↔ FreeOfAll '\'' items := by
  cases items with
  | nil => simp [itemsText, FreeOfAll]
  | cons j js =>
    have hj := apostrophe_not_mem_text h.1
    have hjs := apostrophe_not_mem_itemsText h.2
    cases js with
    | nil => simp [itemsText, FreeOfAll, hj]
    | cons k js => simp [itemsText_cons, FreeOfAll, hj, hjs]

theorem apostrophe_not_mem_fieldsText {fields : List (Text × Json)} (h : PlainFields fields) :
    '\'' ∉ fieldsText fields ↔ FreeOfFields '\'' fields := by
  cases fields with
  | nil => simp [fieldsText, FreeOfFields]
  | cons p fields =>
    obtain ⟨key, j⟩ := p
    have hj := apostrophe_not_mem_text h.1
    have hfields := apostrophe_not_mem_fieldsText h.2
    cases fields with
    | nil => simp [fieldsText, FreeOfFields, hj, apostrophe_mem_quoted]
    | cons q fields => simp [fieldsText_cons, FreeOfFields, hj, hfields, apostrophe_mem_quoted]

end

/-! ## Quotes for apostrophes -/

/-- Putting single quotes for double ones and then double quotes for single ones leaves no single
quote. -/
theorem replaceChar_replaceChar (t : Text) :
    Text.replaceChar '\'' ['"'] (Text.replaceChar '"' ['\''] t) =
      Text.replaceChar '\'' ['"'] t := by
  induction t with
  | nil => rfl
  | cons c t ih =>
    simp only [Text.replaceChar, List.flatMap_cons, List.flatMap_append] at ih ⊢
    rw [ih]
    by_cases hc : c = '"'
    · subst hc
      rfl
    · simp [hc]

theorem replaceChar_of_not_mem {c : Char} {s t : Text} (h : c ∉ t) :
    Text.replaceChar c s t = t := by
  induction t with
  | nil => rfl
  | cons d t ih =>
    obtain ⟨hd, ht⟩ := not_or.mp (mt List.mem_cons.mpr h)
    have hrest := ih ht
    simp only [Text.replaceChar] at hrest
    simp [Text.replaceChar, List.flatMap_cons, Ne.symm hd, hrest]

/-- Every apostrophe that becomes a quote makes a text lighter. -/
theorem textWeight_replaceChar (t : Text) :
    textWeight (Text.replaceChar '\'' ['"'] t) + t.count '\'' = textWeight t := by
  induction t with
  | nil => rfl
  | cons c t ih =>
    simp only [Text.replaceChar] at ih ⊢
    rw [List.flatMap_cons, textWeight_append, textWeight_cons]
    by_cases hc : c = '\''
    · subst hc
      rw [List.count_cons_self]
      have hheavy : isHeavy '\'' = true := rfl
      have hquote : textWeight ['"'] = 0 := rfl
      simp only [if_true, hheavy, hquote]
      omega
    · rw [List.count_cons_of_ne hc, if_neg hc, textWeight_cons, textWeight_nil]
      omega

/-- A value with an apostrophe is not what is read when its apostrophes have become quotes. -/
theorem not_same_of_read? {j k : Json} (hplain : j.Plain) (hfree : ¬j.FreeOf '\'')
    (h : read? (Text.replaceChar '\'' ['"'] j.text) = some k) : same j k = false := by
  refine Bool.eq_false_iff.mpr fun hsame => ?_
  have hmem : '\'' ∈ j.text := by
    rw [← apostrophe_not_mem_text hplain] at hfree
    exact Decidable.not_not.mp hfree
  -- each apostrophe adds to the weight of the text, and a value like `j` cannot pay for it
  have hcount := List.count_pos_iff.mpr hmem
  have hswap := textWeight_replaceChar j.text
  rw [textWeight_text hplain] at hswap
  have hread := weight_le_of_read? h
  have hle := weight_le_of_same hplain hsame
  omega

/-! ## Attribute texts -/

/-- The value is an array or an object. -/
def isNested : Json → Bool
  | .arr _ | .obj _ => true
  | .null | .bool _ | .int _ | .float _ | .str _ => false

mutual

theorem withIntegers_of_plain {j : Json} (h : j.Plain) : j.withIntegers = j := by
  cases j with
  | float x => exact absurd h id
  | arr items => rw [withIntegers, withIntegersAll_of_plain h]
  | obj fields => rw [withIntegers, withIntegersFields_of_plain h.2]
  | _ => rfl

theorem withIntegersAll_of_plain {items : List Json} (h : PlainAll items) :
    withIntegersAll items = items := by
  cases items with
  | nil => rfl
  | cons j js => rw [withIntegersAll, withIntegers_of_plain h.1, withIntegersAll_of_plain h.2]

theorem withIntegersFields_of_plain {fields : List (Text × Json)} (h : PlainFields fields) :
    withIntegersFields fields = fields := by
  cases fields with
  | nil => rfl
  | cons p fields =>
    obtain ⟨key, j⟩ := p
    rw [withIntegersFields, withIntegers_of_plain h.1, withIntegersFields_of_plain h.2]

end

theorem attributeText_head {j : Json} (h : j.isNested = true) :
    ∃ c t, j.attributeText = c :: t ∧ Text.isBlank c = false := by
  cases j with
  | arr items => exact ⟨'[', _, rfl, rfl⟩
  | obj fields => exact ⟨'{', _, rfl, rfl⟩
  | _ => cases h

theorem quote_not_mem_attributeText (j : Json) : '"' ∉ j.attributeText := by
  intro hmem
  obtain ⟨c, -, hc⟩ := List.mem_flatMap.mp hmem
  split at hc
  · exact absurd hc (by decide)
  · next hne => exact hne (List.mem_singleton.mp hc).symm

/-- The text of a plain array or object is read with its single quotes as double ones. -/
theorem parse_attributeText {j : Json} (hnested : j.isNested = true) (hplain : j.Plain)
    {ty : BasicType} (hkind : ty.kind = .object ∨ ty.kind = .array) :
    ty.parse (some j.attributeText) =
      (read? (Text.replaceChar '\'' ['"'] j.text)).getD (.str j.attributeText) := by
  obtain ⟨c, t, ht, hc⟩ := attributeText_head hnested
  have htrim : (Text.trim j.attributeText).isEmpty = false := by
    rw [ht]
    exact Text.isEmpty_trim_of_not_blank hc t
  have hread : BasicType.readJson j.attributeText =
      (read? (Text.replaceChar '\'' ['"'] j.text)).getD (.str j.attributeText) := by
    rw [BasicType.readJson, attributeText, withIntegers_of_plain hplain, replaceChar_replaceChar]
  rcases hkind with hkind | hkind
  · simp [BasicType.parse, hkind, htrim, hread]
  · simp [BasicType.parse, hkind, htrim, hread]

/-- Without apostrophes, an array or object comes back as it was. -/
theorem parse_attributeText_of_free {j : Json} (hnested : j.isNested = true) (hplain : j.Plain)
    (hdepth : j.depth ≤ maxDepth) (hfree : j.FreeOf '\'') {ty : BasicType}
    (hkind : ty.kind = .object ∨ ty.kind = .array) : ty.parse (some j.attributeText) = j := by
  rw [parse_attributeText hnested hplain hkind,
    replaceChar_of_not_mem ((apostrophe_not_mem_text hplain).mpr hfree), read?_text hplain hdepth]
  rfl

/-- With an apostrophe, an array or object never comes back. -/
theorem not_same_parse_attributeText {j : Json} (hnested : j.isNested = true) (hplain : j.Plain)
    (hfree : ¬j.FreeOf '\'') {ty : BasicType} (hkind : ty.kind = .object ∨ ty.kind = .array) :
    same j (ty.parse (some j.attributeText)) = false := by
  rw [parse_attributeText hnested hplain hkind]
  cases h : read? (Text.replaceChar '\'' ['"'] j.text) with
  | some k => exact not_same_of_read? hplain hfree h
  | none =>
    cases j with
    | arr items => rfl
    | obj fields => rfl
    | _ => cases hnested

end LiveMarkup.Json
