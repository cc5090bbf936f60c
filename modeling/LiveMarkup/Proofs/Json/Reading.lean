import LiveMarkup.Json.Printer
import LiveMarkup.Json.Reader
import LiveMarkup.Proofs.Text.Spans
import Mathlib.Data.Option.Basic

/-!
# Reading back JSON text

The compact text of a value is read as that value. Strings and integers are read with any text
behind them, as long as it does not go on with an integer; arrays and objects follow by induction on
the fuel of the reader, of which twice the length of the text is enough.
-/

namespace LiveMarkup.Json

/-! ## Plain values -/

mutual

/-- All numbers in the value are integers that JSON numbers hold, and no object has two members
under one key. -/
def Plain : Json → Prop
  | .int n => inRange n = true
  | .float _ => False
  | .arr items => PlainAll items
  | .obj fields => (Keyed.keys fields).Nodup ∧ PlainFields fields
  | .null | .bool _ | .str _ => True

/-- All items are plain. -/
def PlainAll : List Json → Prop
  | [] => True
  | j :: js => Plain j ∧ PlainAll js

/-- The values of all members are plain. -/
def PlainFields : List (Text × Json) → Prop
  | [] => True
  | (_, j) :: fields => Plain j ∧ PlainFields fields

end

mutual

/-- How deep arrays and objects nest in the value. -/
def depth : Json → Nat
  | .arr items => depthAll items + 1
  | .obj fields => depthFields fields + 1
  | _ => 0

/-- The depth of the deepest item. -/
def depthAll : List Json → Nat
  | [] => 0
  | j :: js => max (depth j) (depthAll js)

/-- The depth of the deepest member. -/
def depthFields : List (Text × Json) → Nat
  | [] => 0
  | (_, j) :: fields => max (depth j) (depthFields fields)

end

/-! ## Strings -/

/-- Four hexadecimal digits that are no half of a surrogate pair are one character. -/
theorem stringBody?_hex {a b c d : Char} {n : Nat} (h : hex4? a b c d = some n)
    (hhigh : isHighSurrogate n = false) (hlow : isLowSurrogate n = false) (rest : Text) :
    stringBody? ('\\' :: 'u' :: a :: b :: c :: d :: rest) =
      (stringBody? rest).map fun p => (Char.ofNat n :: p.1, p.2) := by
  by_cases hpair : ∃ e f g i t, rest = '\\' :: 'u' :: e :: f :: g :: i :: t
  · obtain ⟨e, f, g, i, t, rfl⟩ := hpair
    rw [stringBody?]
    simp [h, hhigh, hlow]
  · rw [stringBody?]
    · simp [h, hhigh, hlow]
    · intro e f g i t ht
      exact hpair ⟨e, f, g, i, t, ht⟩

theorem hexValue?_hexDigit {n : Nat} (h : n < 16) : hexValue? (hexDigit n) = some n :=
  (by decide : ∀ n < 16, hexValue? (hexDigit n) = some n) n h

theorem hex4?_control {n : Nat} (h : n < 0x20) :
    hex4? '0' '0' (hexDigit (n / 16)) (hexDigit (n % 16)) = some n := by
  have hzero : hexValue? '0' = some 0 := rfl
  have hhigh := hexValue?_hexDigit (n := n / 16) (by omega)
  have hlow := hexValue?_hexDigit (n := n % 16) (by omega)
  simp only [hex4?, hzero, hhigh, hlow, bind, Option.bind, pure, Option.some.injEq]
  omega

/-- The characters that have a short escape, each behind the letter of its escape. -/
def shortEscapes : List (Char × Char) :=
  [('"', '"'), ('\\', '\\'), ('b', '\x08'), ('f', '\x0C'), ('n', '\n'), ('r', '\r'), ('t', '\t')]

/-- A character has a short escape, or is another control character, or stands for itself. -/
theorem escapeChar_cases (c : Char) :
    (∃ d, (d, c) ∈ shortEscapes ∧ escapeChar c = ['\\', d]) ∨
      (c.toNat < 0x20 ∧ escapeChar c =
        ['\\', 'u', '0', '0', hexDigit (c.toNat / 16), hexDigit (c.toNat % 16)]) ∨
      (c ≠ '"' ∧ c ≠ '\\' ∧ ¬c.toNat < 0x20 ∧ escapeChar c = [c]) := by
  by_cases hshort : ∃ d, (d, c) ∈ shortEscapes
  · obtain ⟨d, hd⟩ := hshort
    refine .inl ⟨d, hd, ?_⟩
    simp only [shortEscapes, List.mem_cons, Prod.mk.injEq, List.not_mem_nil, or_false] at hd
    rcases hd with ⟨rfl, rfl⟩ | ⟨rfl, rfl⟩ | ⟨rfl, rfl⟩ | ⟨rfl, rfl⟩ | ⟨rfl, rfl⟩ | ⟨rfl, rfl⟩ |
      ⟨rfl, rfl⟩ <;> rfl
  · simp only [shortEscapes, List.mem_cons, Prod.mk.injEq, List.not_mem_nil, or_false, exists_or,
      exists_eq_left, not_or] at hshort
    obtain ⟨hquote, hslash, hb, hf, hn, hr, ht⟩ := hshort
    refine .inr ?_
    simp only [escapeChar, hquote, hslash, hb, hf, hn, hr, ht, if_false]
    by_cases hcontrol : c.toNat < 0x20
    · exact .inl ⟨hcontrol, if_pos hcontrol⟩
    · exact .inr ⟨hquote, hslash, hcontrol, if_neg hcontrol⟩

/-- A character is read back from the way it stands in a string. -/
theorem stringBody?_escapeChar (c : Char) (rest : Text) :
    stringBody? (escapeChar c ++ rest) = (stringBody? rest).map fun p => (c :: p.1, p.2) := by
  rcases escapeChar_cases c with ⟨d, hd, heq⟩ | ⟨hcontrol, heq⟩ | ⟨hquote, hslash, hcontrol, heq⟩
  · have hunescape : ∀ p ∈ shortEscapes, unescape? p.1 = some p.2 ∧ p.1 ≠ 'u' := by decide
    obtain ⟨hd, hu⟩ := hunescape _ hd
    rw [heq, List.cons_append, List.singleton_append, stringBody?]
    · rw [hd]
    all_goals intros; contradiction
  · have hhigh : isHighSurrogate c.toNat = false := by
      simp only [isHighSurrogate, Bool.and_eq_false_iff, decide_eq_false_iff_not]
      omega
    have hlow : isLowSurrogate c.toNat = false := by
      simp only [isLowSurrogate, Bool.and_eq_false_iff, decide_eq_false_iff_not]
      omega
    have hread := stringBody?_hex (hex4?_control hcontrol) hhigh hlow rest
    rw [Char.ofNat_toNat] at hread
    rw [heq]
    exact hread
  · rw [heq, List.singleton_append, stringBody?]
    · rw [if_neg hcontrol]
    · exact hquote
    all_goals intros; contradiction

/-- A string is read back. -/
theorem stringBody?_escaped (s rest : Text) :
    stringBody? (s.flatMap escapeChar ++ '"' :: rest) = some (s, rest) := by
  induction s with
  | nil => rfl
  | cons c s ih => rw [List.flatMap_cons, List.append_assoc, stringBody?_escapeChar, ih]; rfl

/-! ## Numbers -/

theorem le_ofDigitChars (n : Nat) (ds : Text) : n ≤ Nat.ofDigitChars 10 ds n := by
  rw [Nat.ofDigitChars_eq_ofDigitChars_zero]
  have hpos : 0 < 10 ^ ds.length := Nat.pow_pos (by decide)
  exact Nat.le_trans (Nat.le_mul_of_pos_left n hpos) (Nat.le_add_right _ _)

/-- All digits of a number of 64 bits are gathered. -/
theorem absorb_eq {n : Nat} {ds : Text} (h : Nat.ofDigitChars 10 ds n < Nat.pow 2 64) :
    absorb n ds = (Nat.ofDigitChars 10 ds n, ds.length) := by
  induction ds generalizing n with
  | nil => rfl
  | cons d ds ih =>
    have hstep : Nat.ofDigitChars 10 (d :: ds) n =
        Nat.ofDigitChars 10 ds (10 * n + Text.digitValue d) := Nat.ofDigitChars_cons
    rw [hstep] at h ⊢
    have hnext : 10 * n + Text.digitValue d < Nat.pow 2 64 :=
      Nat.lt_of_le_of_lt (le_ofDigitChars _ ds) h
    rw [absorb, if_pos hnext, ih h]
    rfl

theorem head?_toDigits {n : Nat} (h : 0 < n) : (Nat.toDigits 10 n).head? ≠ some '0' := by
  induction n using Nat.strongRecOn with
  | ind n ih =>
    by_cases hlt : n < 10
    · rw [Nat.toDigits_of_lt_base hlt]
      simp [Nat.ne_of_gt h]
    · have hle : 10 ≤ n := Nat.le_of_not_lt hlt
      have hhead := ih (n / 10) (Nat.div_lt_self h (by decide)) (Nat.div_pos hle (by decide))
      rw [Nat.toDigits_of_base_le (by decide) hle]
      rw [List.head?_append]
      cases hquotient : (Nat.toDigits 10 (n / 10)).head? with
      | none => exact absurd (List.head?_eq_none_iff.mp hquotient) Nat.toDigits_ne_nil
      | some c => rwa [hquotient] at hhead

/-- What a number goes on with behind its first digits. -/
def goesOn (c : Char) : Bool := c.isDigit || c = '.' || c = 'e' || c = 'E'

theorem fraction?_of_stops {rest : Text} (h : Text.Stops goesOn rest) :
    fraction? rest = some (none, rest) := by
  unfold fraction?
  split
  · exact absurd (Text.stops_cons.mp h) (by decide)
  · rfl

theorem exponent?_of_stops {rest : Text} (h : Text.Stops goesOn rest) :
    exponent? rest = some (none, rest) := by
  cases rest with
  | nil => rfl
  | cons c rest =>
    have hc := Text.stops_cons.mp h
    simp only [goesOn, Bool.or_eq_false_iff, decide_eq_false_iff_not] at hc
    simp [exponent?, hc.1.2, hc.2]

theorem ofParts?_ofNat {n : Nat} (h : n < Nat.pow 2 64) :
    ofParts? false (Text.ofNat n) none none = some (.int n) := by
  have hvalue : Nat.ofDigitChars 10 (Text.ofNat n) 0 = n := Nat.ofDigitChars_ten_toDigits
  have habsorb := absorb_eq (hvalue ▸ h)
  rw [hvalue] at habsorb
  simp [ofParts?, habsorb]

theorem ofParts?_neg_ofNat {n : Nat} (hpos : 0 < n) (h : n ≤ Nat.pow 2 63) :
    ofParts? true (Text.ofNat n) none none = some (.int (-n)) := by
  have hvalue : Nat.ofDigitChars 10 (Text.ofNat n) 0 = n := Nat.ofDigitChars_ten_toDigits
  have hlt : n < Nat.pow 2 64 := Nat.lt_of_le_of_lt h (by decide)
  have habsorb := absorb_eq (hvalue ▸ hlt)
  rw [hvalue] at habsorb
  simp only [ofParts?, habsorb, Option.isNone_none, Bool.and_self, Nat.sub_self, decide_true,
    Bool.not_true, Bool.false_eq_true, if_true, if_false, if_neg (Nat.ne_of_gt hpos), if_pos h]

theorem isDigit_of_mem_ofNat {n : Nat} {c : Char} (h : c ∈ Text.ofNat n) : c.isDigit = true :=
  Nat.isDigit_of_mem_toDigits (by decide) (by decide) h

theorem stops_isDigit_of_stops {rest : Text} (h : Text.Stops goesOn rest) :
    Text.Stops Char.isDigit rest := by
  intro c hc
  have hgoesOn := h c hc
  simp only [goesOn, Bool.or_eq_false_iff] at hgoesOn
  exact hgoesOn.1.1.1

theorem ofNat_head (n : Nat) : ∃ c t, Text.ofNat n = c :: t ∧ c.isDigit = true := by
  have hne : Text.ofNat n ≠ [] := Nat.toDigits_ne_nil
  obtain ⟨c, t, h⟩ := List.exists_cons_of_ne_nil hne
  exact ⟨c, t, h, isDigit_of_mem_ofNat (n := n) (by rw [h]; exact List.mem_cons_self)⟩

/-- The digits of a number are those of a JSON number: there are some, and the first is no zero
unless it is the only one. -/
theorem guard_ofNat (n : Nat) : (guard (!(Text.ofNat n).isEmpty &&
    ((Text.ofNat n).length = 1 || (Text.ofNat n).head? ≠ some '0')) : Option Unit) = some () := by
  refine (Option.guard_eq_some' ()).mpr ?_
  obtain ⟨c, t, ht, -⟩ := ofNat_head n
  have hne : Text.ofNat n ≠ [] := by
    rw [ht]
    exact List.cons_ne_nil c t
  have hhead : (Text.ofNat n).length = 1 ∨ (Text.ofNat n).head? ≠ some '0' := by
    rcases Nat.eq_zero_or_pos n with rfl | hpos
    · exact .inl rfl
    · exact .inr (head?_toDigits hpos)
  simpa [hne] using hhead

/-- An integer is read back when what follows it does not go on with it. -/
theorem number_ofInt {n : Int} (h : inRange n = true) {rest : Text}
    (hrest : Text.Stops goesOn rest) : number (Text.ofInt n ++ rest) = some (.int n, rest) := by
  simp only [inRange, Bool.and_eq_true, decide_eq_true_eq, Nat.pow_eq] at h
  have hall : ∀ c ∈ Text.ofNat n.natAbs, c.isDigit = true := fun c => isDigit_of_mem_ofNat
  have htake := Text.takeWhile_append_of_stops hall (stops_isDigit_of_stops hrest)
  have hdrop := Text.dropWhile_append_of_stops hall (stops_isDigit_of_stops hrest)
  have hguard := guard_ofNat n.natAbs
  by_cases hneg : n < 0
  · have hle : n.natAbs ≤ Nat.pow 2 63 := by
      rw [Nat.pow_eq]
      omega
    have hparts := ofParts?_neg_ofNat (by omega) hle
    have hvalue : -(n.natAbs : Int) = n := by omega
    rw [Text.ofInt, if_pos hneg, List.cons_append]
    unfold number
    split
    next negative t hsplit =>
    cases hsplit
    rw [htake, hdrop]
    change (guard _ >>= _) = _
    rw [hguard, fraction?_of_stops hrest]
    simp only [exponent?_of_stops hrest, bind, Option.bind, pure, hparts, hvalue]
  · have hlt : n.natAbs < Nat.pow 2 64 := by
      rw [Nat.pow_eq]
      omega
    have hparts := ofParts?_ofNat hlt
    have hvalue : (n.natAbs : Int) = n := by omega
    have hminus : ∀ t, Text.ofNat n.natAbs ++ rest ≠ '-' :: t := by
      intro t heq
      obtain ⟨c, s, hs, hc⟩ := ofNat_head n.natAbs
      rw [hs, List.cons_append] at heq
      obtain ⟨rfl, -⟩ := List.cons.inj heq
      exact absurd hc (by decide)
    rw [Text.ofInt, if_neg hneg]
    unfold number
    split
    next negative t hsplit =>
    split at hsplit
    · next heq => exact absurd heq (hminus _)
    · cases hsplit
      rw [htake, hdrop]
      change (guard _ >>= _) = _
      rw [hguard, fraction?_of_stops hrest]
      simp only [exponent?_of_stops hrest, bind, Option.bind, pure, hparts, hvalue]

/-! ## Values -/

theorem skipGaps_cons {c : Char} (h : isGap c = false) (t : Text) : skipGaps (c :: t) = c :: t := by
  simp [skipGaps, h]

theorem isGap_of_isDigit {c : Char} (h : c.isDigit = true ∨ c = '-') : isGap c = false := by
  refine Bool.eq_false_iff.mpr fun hgap => ?_
  simp only [isGap, Bool.or_eq_true, decide_eq_true_eq] at hgap
  rcases hgap with ((rfl | rfl) | rfl) | rfl <;> exact absurd h (by decide)

/-- A digit or a minus sign begins a number. -/
theorem value?_number {fuel depth : Nat} {c : Char} (h : c.isDigit = true ∨ c = '-') (t : Text) :
    value? (fuel + 1) depth (c :: t) = number (c :: t) := by
  rw [value?, skipGaps_cons (isGap_of_isDigit h)]
  split
  · next heq => cases heq
  · next heq => cases heq; exact absurd h (by decide)
  · next heq => cases heq; exact absurd h (by decide)
  · next heq => cases heq; exact absurd h (by decide)
  · next heq => cases heq; exact absurd h (by decide)
  · next heq => cases heq; exact absurd h (by decide)
  · next heq => cases heq; exact absurd h (by decide)
  · rfl

theorem ofInt_head (n : Int) :
    ∃ c t, Text.ofInt n = c :: t ∧ (c.isDigit = true ∨ c = '-') := by
  obtain ⟨c, t, h, hdigit⟩ := ofNat_head n.natAbs
  unfold Text.ofInt
  split
  · exact ⟨'-', _, rfl, .inr rfl⟩
  · exact ⟨c, t, h, .inl hdigit⟩

/-- The text of a plain value begins with no gap and does not close an array. -/
theorem text_head {j : Json} (h : j.Plain) :
    ∃ c t, j.text = c :: t ∧ isGap c = false ∧ c ≠ ']' := by
  cases j with
  | null => exact ⟨'n', _, rfl, rfl, by decide⟩
  | bool b => cases b <;> exact ⟨_, _, rfl, rfl, by decide⟩
  | int n =>
    obtain ⟨c, t, ht, hc⟩ := ofInt_head n
    refine ⟨c, t, ht, isGap_of_isDigit hc, ?_⟩
    rintro rfl
    exact absurd hc (by decide)
  | float x => exact absurd h id
  | str s => exact ⟨'"', _, rfl, rfl, by decide⟩
  | arr items => exact ⟨'[', _, rfl, rfl, by decide⟩
  | obj fields => exact ⟨'{', _, rfl, rfl, by decide⟩

/-- With this fuel, values whose texts are short enough for it are read back. -/
def ReadsValues (fuel : Nat) : Prop :=
  ∀ {j : Json} {d : Nat} {rest : Text}, j.Plain → 2 * j.text.length ≤ fuel →
    j.depth ≤ d → Text.Stops goesOn rest → value? fuel d (j.text ++ rest) = some (j, rest)

def ReadsItems (fuel : Nat) : Prop :=
  ∀ {items : List Json} {d : Nat} {rest : Text}, items ≠ [] → PlainAll items →
    2 * (itemsText items).length < fuel → depthAll items ≤ d →
    items? fuel d (itemsText items ++ ']' :: rest) = some (items, rest)

def ReadsMembers (fuel : Nat) : Prop :=
  ∀ {fields : List (Text × Json)} {d : Nat} {rest : Text}, fields ≠ [] →
    PlainFields fields → 2 * (fieldsText fields).length < fuel → depthFields fields ≤ d →
    members? fuel d (fieldsText fields ++ '}' :: rest) = some (fields, rest)

theorem itemsText_cons (j k : Json) (js : List Json) :
    itemsText (j :: k :: js) = text j ++ ',' :: itemsText (k :: js) := by
  rw [itemsText]
  exact fun h => nomatch h

theorem fieldsText_cons (key : Text) (j : Json) (p : Text × Json) (fields : List (Text × Json)) :
    fieldsText ((key, j) :: p :: fields) =
      quoted key ++ ':' :: (text j ++ ',' :: fieldsText (p :: fields)) := by
  rw [fieldsText]
  exact fun h => nomatch h

theorem itemsText_head {items : List Json} (hne : items ≠ []) (h : PlainAll items) :
    ∃ c t, itemsText items = c :: t ∧ isGap c = false ∧ c ≠ ']' := by
  cases items with
  | nil => contradiction
  | cons j js =>
    obtain ⟨c, t, ht, hc⟩ := text_head h.1
    cases js with
    | nil => exact ⟨c, t, ht, hc⟩
    | cons k js => exact ⟨c, _, by rw [itemsText_cons, ht, List.cons_append], hc⟩

theorem fieldsText_head {fields : List (Text × Json)} (hne : fields ≠ []) :
    ∃ t, fieldsText fields = '"' :: t := by
  cases fields with
  | nil => contradiction
  | cons p fields =>
    cases fields with
    | nil => exact ⟨_, rfl⟩
    | cons q fields => exact ⟨_, by rw [fieldsText_cons, quoted, List.cons_append]⟩

theorem value?_arr {fuel d : Nat} {c : Char} {t rest : Text} {items : List Json}
    (hgap : isGap c = false) (hclose : c ≠ ']')
    (h : items? fuel d (c :: t) = some (items, rest)) :
    value? (fuel + 1) (d + 1) ('[' :: c :: t) = some (.arr items, rest) := by
  rw [value?, skipGaps_cons rfl]
  simp only [skipGaps_cons hgap]
  split
  · next heq => cases heq
  · next heq => cases heq; contradiction
  · next heq _ => cases heq; rw [h]; rfl

theorem value?_obj {fuel d : Nat} {t rest : Text} {fields : List (Text × Json)}
    (h : members? fuel d ('"' :: t) = some (fields, rest)) :
    value? (fuel + 1) (d + 1) ('{' :: '"' :: t) = some (.obj (Keyed.ofList fields), rest) := by
  rw [value?, skipGaps_cons rfl]
  simp only [skipGaps_cons (show isGap '"' = false from rfl)]
  split
  · next heq => cases heq
  · next heq => cases heq
  · next heq _ => cases heq; rw [h]; rfl

theorem items?_last {fuel d : Nat} {j : Json} {t rest : Text}
    (h : value? fuel d t = some (j, ']' :: rest)) :
    items? (fuel + 1) d t = some ([j], rest) := by
  rw [items?, h]
  rfl

theorem items?_next {fuel d : Nat} {j : Json} {js : List Json} {t u rest : Text}
    (h : value? fuel d t = some (j, ',' :: u)) (hrest : items? fuel d u = some (js, rest)) :
    items? (fuel + 1) d t = some (j :: js, rest) := by
  rw [items?, h]
  simp only [skipGaps_cons (show isGap ',' = false from rfl), hrest, Option.map_some]

theorem members?_last {fuel d : Nat} {key : Text} {j : Json} {t rest : Text}
    (h : value? fuel d t = some (j, '}' :: rest)) :
    members? (fuel + 1) d (quoted key ++ ':' :: t) = some ([(key, j)], rest) := by
  rw [quoted, List.cons_append, List.append_assoc, List.singleton_append, members?,
    skipGaps_cons rfl]
  simp only [stringBody?_escaped, skipGaps_cons (show isGap ':' = false from rfl), h,
    skipGaps_cons (show isGap '}' = false from rfl)]

theorem members?_next {fuel d : Nat} {key : Text} {j : Json} {fields : List (Text × Json)}
    {t u rest : Text} (h : value? fuel d t = some (j, ',' :: u))
    (hrest : members? fuel d u = some (fields, rest)) :
    members? (fuel + 1) d (quoted key ++ ':' :: t) = some ((key, j) :: fields, rest) := by
  rw [quoted, List.cons_append, List.append_assoc, List.singleton_append, members?,
    skipGaps_cons rfl]
  simp only [stringBody?_escaped, skipGaps_cons (show isGap ':' = false from rfl), h,
    skipGaps_cons (show isGap ',' = false from rfl), hrest, Option.map_some]

theorem readsValues_succ {fuel : Nat} (hitems : ReadsItems fuel) (hmembers : ReadsMembers fuel) :
    ReadsValues (fuel + 1) := by
  intro j d rest hplain hfuel hdepth hrest
  cases j with
  | null => rfl
  | bool b => cases b <;> rfl
  | int n =>
    obtain ⟨c, t, ht, hc⟩ := ofInt_head n
    have hnumber := number_ofInt hplain hrest
    rw [ht] at hnumber
    rw [text, ht, List.cons_append, value?_number hc]
    exact hnumber
  | float x => exact absurd hplain id
  | str s =>
    rw [text, quoted, List.cons_append, List.append_assoc, value?, skipGaps_cons rfl]
    simp only [List.singleton_append, stringBody?_escaped]
    rfl
  | arr items =>
    rw [Json.depth] at hdepth
    obtain ⟨d, rfl⟩ : ∃ k, d = k + 1 := ⟨d - 1, by omega⟩
    rw [text, List.length_cons, List.length_append, List.length_singleton] at hfuel
    rw [text, List.cons_append, List.append_assoc, List.singleton_append]
    by_cases hne : items = []
    · subst hne
      rfl
    · obtain ⟨c, t, ht, hgap, hclose⟩ := itemsText_head hne hplain
      have hread : items? fuel d (itemsText items ++ ']' :: rest) = some (items, rest) :=
        hitems hne hplain (by omega) (by omega)
      rw [ht, List.cons_append] at hread ⊢
      exact value?_arr hgap hclose hread
  | obj fields =>
    rw [Json.depth] at hdepth
    obtain ⟨d, rfl⟩ : ∃ k, d = k + 1 := ⟨d - 1, by omega⟩
    rw [text, List.length_cons, List.length_append, List.length_singleton] at hfuel
    rw [text, List.cons_append, List.append_assoc, List.singleton_append]
    by_cases hne : fields = []
    · subst hne
      rfl
    · obtain ⟨t, ht⟩ := fieldsText_head hne
      have hread : members? fuel d (fieldsText fields ++ '}' :: rest) = some (fields, rest) :=
        hmembers hne hplain.2 (by omega) (by omega)
      rw [ht, List.cons_append] at hread ⊢
      rw [value?_obj hread, Keyed.ofList_of_nodup hplain.1]

theorem readsItems_succ {fuel : Nat} (hvalues : ReadsValues fuel) (hitems : ReadsItems fuel) :
    ReadsItems (fuel + 1) := by
  intro items d rest hne hplain hfuel hdepth
  cases items with
  | nil => contradiction
  | cons j js =>
    obtain ⟨hj, hjs⟩ := hplain
    rw [depthAll] at hdepth
    cases js with
    | nil =>
      rw [itemsText] at hfuel ⊢
      exact items?_last (hvalues hj (by omega) (by omega) (Text.stops_cons.mpr rfl))
    | cons k js =>
      rw [itemsText_cons, List.length_append, List.length_cons] at hfuel
      rw [itemsText_cons, List.append_assoc, List.cons_append]
      exact items?_next (hvalues hj (by omega) (by omega) (Text.stops_cons.mpr rfl))
        (hitems (List.cons_ne_nil k js) hjs (by omega) (by omega))

theorem readsMembers_succ {fuel : Nat} (hvalues : ReadsValues fuel)
    (hmembers : ReadsMembers fuel) : ReadsMembers (fuel + 1) := by
  intro fields d rest hne hplain hfuel hdepth
  cases fields with
  | nil => contradiction
  | cons p fields =>
    obtain ⟨key, j⟩ := p
    obtain ⟨hj, hfields⟩ := hplain
    rw [depthFields] at hdepth
    cases fields with
    | nil =>
      rw [fieldsText, List.length_append, List.length_cons] at hfuel
      rw [fieldsText, List.append_assoc, List.cons_append]
      exact members?_last (hvalues hj (by omega) (by omega) (Text.stops_cons.mpr rfl))
    | cons p fields =>
      rw [fieldsText_cons, List.length_append, List.length_cons, List.length_append,
        List.length_cons] at hfuel
      rw [fieldsText_cons, List.append_assoc, List.cons_append, List.append_assoc,
        List.cons_append]
      exact members?_next (hvalues hj (by omega) (by omega) (Text.stops_cons.mpr rfl))
        (hmembers (List.cons_ne_nil p fields) hfields (by omega) (by omega))

theorem reads (fuel : Nat) : ReadsValues fuel ∧ ReadsItems fuel ∧ ReadsMembers fuel := by
  induction fuel with
  | zero =>
    refine ⟨fun hplain hfuel _ _ => ?_, fun _ _ hfuel _ => ?_, fun _ _ hfuel _ => ?_⟩
    · obtain ⟨c, t, ht, -⟩ := text_head hplain
      rw [ht, List.length_cons] at hfuel
      omega
    · omega
    · omega
  | succ fuel ih =>
    obtain ⟨hvalues, hitems, hmembers⟩ := ih
    exact ⟨readsValues_succ hitems hmembers, readsItems_succ hvalues hitems,
      readsMembers_succ hvalues hmembers⟩

/-- A plain value that nests no deeper than the reader goes is read back from its text. -/
theorem read?_text {j : Json} (hplain : j.Plain) (hdepth : j.depth ≤ maxDepth) :
    read? j.text = some j := by
  have hread : value? (2 * j.text.length + 2) maxDepth (j.text ++ []) = some (j, []) :=
    (reads _).1 hplain (by omega) hdepth Text.stops_nil
  rw [List.append_nil] at hread
  rw [read?, hread]
  rfl

end LiveMarkup.Json
