import LiveMarkup.Proofs.Json.Reading

/-!
# The weight of JSON text

The weight of a text is the number of its apostrophes, backslashes and letters `u`. Reading JSON
never gains weight: a character of a string costs at least what it weighs when it is written, since
an escape that could give an apostrophe or a backslash has a backslash and a letter of its own.
Equal values have equal weight, so a text cannot be the source of a value that is written with more
of these characters than the text has.
-/

namespace LiveMarkup.Json

/-! ## Weight of texts -/

/-- The characters that are counted: apostrophes, and those by which a character is escaped. -/
def isHeavy (c : Char) : Bool := c = '\'' || c = '\\' || c = 'u'

/-- How many heavy characters a text has. -/
def textWeight (t : Text) : Nat := t.countP isHeavy

@[simp] theorem textWeight_nil : textWeight [] = 0 := rfl

@[simp] theorem textWeight_cons (c : Char) (t : Text) :
    textWeight (c :: t) = textWeight t + if isHeavy c then 1 else 0 := List.countP_cons

@[simp] theorem textWeight_append (s t : Text) :
    textWeight (s ++ t) = textWeight s + textWeight t := List.countP_append

/-- The weight of a string as it is written. -/
def stringWeight (s : Text) : Nat := textWeight (s.flatMap escapeChar)

theorem stringWeight_cons (c : Char) (s : Text) :
    stringWeight (c :: s) = textWeight (escapeChar c) + stringWeight s := by
  simp [stringWeight]

theorem isHeavy_hexDigit {n : Nat} (h : n < 16) : isHeavy (hexDigit n) = false :=
  (by decide : ∀ n < 16, isHeavy (hexDigit n) = false) n h

theorem textWeight_escapeChar_le (c : Char) : textWeight (escapeChar c) ≤ 2 := by
  rcases escapeChar_cases c with ⟨d, -, heq⟩ | ⟨hcontrol, heq⟩ | ⟨-, -, -, heq⟩
  · rw [heq]
    exact List.countP_le_length
  · have hhigh := isHeavy_hexDigit (show c.toNat / 16 < 16 by omega)
    have hlow := isHeavy_hexDigit (show c.toNat % 16 < 16 by omega)
    rw [heq]
    simp only [textWeight_cons, textWeight_nil, hhigh, hlow]
    decide
  · rw [heq]
    exact Nat.le_trans List.countP_le_length (Nat.le_succ 1)

/-- A hexadecimal escape weighs as much as any character at the least. -/
theorem textWeight_hexEscape (a b c d : Char) (t : Text) :
    textWeight t + 2 ≤ textWeight ('\\' :: 'u' :: a :: b :: c :: d :: t) := by
  have hslash : isHeavy '\\' = true := rfl
  have hu : isHeavy 'u' = true := rfl
  simp only [textWeight_cons, hslash, hu, if_true]
  omega

theorem textWeight_unescape? {c d : Char} (h : unescape? c = some d) :
    textWeight (escapeChar d) ≤ textWeight ['\\', c] := by
  unfold unescape? at h
  split at h
  · next hc =>
    cases h
    simp only [Bool.or_eq_true, decide_eq_true_eq] at hc
    rcases hc with (rfl | rfl) | rfl <;> decide
  split at h
  · next hc => cases h; subst hc; decide
  split at h
  · next hc => cases h; subst hc; decide
  split at h
  · next hc => cases h; subst hc; decide
  split at h
  · next hc => cases h; subst hc; decide
  split at h
  · next hc => cases h; subst hc; decide
  · cases h

theorem escapeChar_of_plain {c : Char} (hquote : c ≠ '"') (hslash : c ≠ '\\')
    (hcontrol : ¬c.toNat < 0x20) : escapeChar c = [c] := by
  rcases escapeChar_cases c with ⟨d, hd, -⟩ | ⟨hlt, -⟩ | ⟨-, -, -, heq⟩
  · have hshort : ∀ p ∈ shortEscapes, p.2 = '"' ∨ p.2 = '\\' ∨ p.2.toNat < 0x20 := by decide
    rcases hshort _ hd with h | h | h
    · exact absurd h hquote
    · exact absurd h hslash
    · exact absurd h hcontrol
  · exact absurd hlt hcontrol
  · exact heq

/-- Reading one more character keeps a string from being heavier than what it is read from. -/
theorem stringWeight_le_cons {c : Char} {t u s rest : Text}
    (h : (stringBody? u).map (fun p => (c :: p.1, p.2)) = some (s, rest))
    (ih : ∀ {s rest : Text}, stringBody? u = some (s, rest) →
      stringWeight s + textWeight rest ≤ textWeight u)
    (hc : textWeight (escapeChar c) + textWeight u ≤ textWeight t) :
    stringWeight s + textWeight rest ≤ textWeight t := by
  obtain ⟨p, hbody, heq⟩ := Option.map_eq_some_iff.mp h
  cases heq
  have hle := ih hbody
  rw [stringWeight_cons]
  omega

/-- A string is not heavier than what it is read from. -/
theorem stringWeight_le {t s rest : Text} (h : stringBody? t = some (s, rest)) :
    stringWeight s + textWeight rest ≤ textWeight t := by
  -- a hexadecimal escape pays for any character, since its backslash and its letter are heavy
  fun_induction stringBody? t generalizing s rest with
  | case1 => cases h
  | case2 =>
    cases h
    exact Nat.le_of_eq (Nat.zero_add _)
  | case3 => cases h
  | case4 => cases h
  | case5 a b c d e f g i tail n _ _ m _ _ code =>
    rename_i ih
    refine stringWeight_le_cons h ih ?_
    have hle := textWeight_escapeChar_le (Char.ofNat code)
    have hlow := textWeight_hexEscape e f g i tail
    have hhigh := textWeight_hexEscape a b c d ('\\' :: 'u' :: e :: f :: g :: i :: tail)
    omega
  | case6 => cases h
  | case7 => cases h
  | case8 a b c d e f g i tail n _ _ _ ih =>
    refine stringWeight_le_cons h ih ?_
    have hle := textWeight_escapeChar_le (Char.ofNat n)
    have hescape := textWeight_hexEscape a b c d ('\\' :: 'u' :: e :: f :: g :: i :: tail)
    omega
  | case9 => cases h
  | case10 => cases h
  | case11 a b c d tail _ n _ _ ih =>
    refine stringWeight_le_cons h ih ?_
    have hle := textWeight_escapeChar_le (Char.ofNat n)
    have hescape := textWeight_hexEscape a b c d tail
    omega
  | case12 => cases h
  | case13 c tail _ _ d hd ih =>
    refine stringWeight_le_cons h ih ?_
    have hle := textWeight_unescape? hd
    simp only [textWeight_cons, textWeight_nil] at hle ⊢
    omega
  | case14 => cases h
  | case15 c tail hquote _ _ hslash hcontrol ih =>
    refine stringWeight_le_cons h ih ?_
    cases tail with
    | nil => cases h
    | cons d tail =>
      rw [escapeChar_of_plain hquote (fun hc => hslash d tail hc rfl) hcontrol]
      simp only [textWeight_cons, textWeight_nil]
      omega

/-! ## Weight of values -/

mutual

/-- The weight of a value as it is written. -/
def weight : Json → Nat
  | .null => 1
  | .bool b => if b then 1 else 0
  | .int _ | .float _ => 0
  | .str s => stringWeight s
  | .arr items => weightAll items
  | .obj fields => weightFields fields

/-- The weight of items as they are written. -/
def weightAll : List Json → Nat
  | [] => 0
  | j :: js => weight j + weightAll js

/-- The weight of members as they are written. -/
def weightFields : List (Text × Json) → Nat
  | [] => 0
  | (key, j) :: fields => stringWeight key + weight j + weightFields fields

end

theorem textWeight_le_of_suffix {s t : Text} (h : s <:+ t) : textWeight s ≤ textWeight t :=
  h.sublist.countP_le

theorem suffix_of_fraction? {t rest : Text} {fraction : Option Text}
    (h : fraction? t = some (fraction, rest)) : rest <:+ t := by
  unfold fraction? at h
  split at h
  · simp only at h
    split at h
    · cases h
    · cases h
      exact (List.dropWhile_suffix _).trans (List.suffix_cons _ _)
  · cases h
    exact List.suffix_rfl

theorem suffix_of_exponent? {t rest : Text} {exponent : Option (Bool × Text)}
    (h : exponent? t = some (exponent, rest)) : rest <:+ t := by
  unfold exponent? at h
  split at h
  · cases h
    exact List.suffix_rfl
  · split at h
    · next e behind _ =>
      split at h
      next down digits hsign =>
      have hdigits : digits <:+ behind := by
        split at hsign
        · cases hsign
          exact List.suffix_cons _ _
        · cases hsign
          exact List.suffix_cons _ _
        · cases hsign
          exact List.suffix_rfl
      simp only at h
      split at h
      · cases h
      · cases h
        exact ((List.dropWhile_suffix _).trans hdigits).trans (List.suffix_cons _ _)
    · cases h
      exact List.suffix_rfl

theorem weight_of_ofParts? {negative : Bool} {whole : Text} {fraction : Option Text}
    {exponent : Option (Bool × Text)} {j : Json}
    (h : ofParts? negative whole fraction exponent = some j) : j.weight = 0 := by
  have hfloat : ∀ {x : Option Binary64}, x.map Json.float = some j → j.weight = 0 := by
    intro x hx
    obtain ⟨x, -, rfl⟩ := Option.map_eq_some_iff.mp hx
    rfl
  unfold ofParts? at h
  simp only at h
  split at h
  · split at h
    · cases h; rfl
    split at h
    · cases h; rfl
    split at h
    · cases h; rfl
    · cases h; rfl
  split at h
  · exact hfloat h
  split at h
  · split at h
    · cases h
    · cases h; rfl
  · exact hfloat h

theorem weight_of_number {t rest : Text} {j : Json} (h : number t = some (j, rest)) :
    j.weight + textWeight rest ≤ textWeight t := by
  unfold number at h
  split at h
  next negative digits hsign =>
  have hdigits : digits <:+ t := by
    split at hsign
    · cases hsign
      exact List.suffix_cons _ _
    · cases hsign
      exact List.suffix_rfl
  obtain ⟨-, -, h⟩ := Option.bind_eq_some_iff.mp h
  obtain ⟨⟨fraction, behind⟩, hfraction, h⟩ := Option.bind_eq_some_iff.mp h
  obtain ⟨⟨exponent, others⟩, hexponent, h⟩ := Option.bind_eq_some_iff.mp h
  obtain ⟨k, hparts, heq⟩ := Option.bind_eq_some_iff.mp h
  cases heq
  have hsuffix := (suffix_of_exponent? hexponent).trans
    ((suffix_of_fraction? hfraction).trans ((List.dropWhile_suffix _).trans hdigits))
  rw [weight_of_ofParts? hparts, Nat.zero_add]
  exact textWeight_le_of_suffix hsuffix

theorem textWeight_skipGaps_le (t : Text) : textWeight (skipGaps t) ≤ textWeight t :=
  textWeight_le_of_suffix (List.dropWhile_suffix _)

theorem weight_of_after? {mark t rest : Text} {j k : Json}
    (h : (Text.after? mark t).map (fun t => (j, t)) = some (k, rest))
    (hj : j.weight ≤ textWeight mark) : k.weight + textWeight rest ≤ textWeight t := by
  obtain ⟨u, hafter, heq⟩ := Option.map_eq_some_iff.mp h
  cases heq
  rw [Text.eq_append_of_after? hafter, textWeight_append]
  omega

/-- A keyword behind its first character. -/
theorem weight_of_keyword {t behind mark rest : Text} {c : Char} {j k : Json}
    (hgaps : skipGaps t = c :: behind)
    (h : (Text.after? mark behind).map (fun t => (j, t)) = some (k, rest))
    (hj : j.weight ≤ textWeight mark) : k.weight + textWeight rest ≤ textWeight t := by
  have hskip := textWeight_skipGaps_le t
  have hbehind := weight_of_after? h hj
  rw [hgaps, textWeight_cons] at hskip
  omega

theorem weightFields_insert_le (fields : List (Text × Json)) (key : Text) (j : Json) :
    weightFields (Keyed.insert fields key j) ≤
      stringWeight key + j.weight + weightFields fields := by
  induction fields with
  | nil => exact Nat.le_refl _
  | cons p fields ih =>
    obtain ⟨k, v⟩ := p
    rw [Keyed.insert]
    split
    · next hk =>
      subst hk
      simp only [weightFields]
      omega
    · simp only [weightFields]
      omega

theorem weightFields_foldl_insert_le (m fields : List (Text × Json)) :
    weightFields (fields.foldl (fun m p => Keyed.insert m p.1 p.2) m) ≤
      weightFields m + weightFields fields := by
  induction fields generalizing m with
  | nil => exact Nat.le_refl _
  | cons p fields ih =>
    have hinsert := weightFields_insert_le m p.1 p.2
    have hrest := ih (Keyed.insert m p.1 p.2)
    rw [List.foldl_cons, weightFields]
    omega

theorem weightFields_ofList_le (fields : List (Text × Json)) :
    weightFields (Keyed.ofList fields) ≤ weightFields fields := by
  have h := weightFields_foldl_insert_le [] fields
  rwa [weightFields, Nat.zero_add] at h

def WeighsValues (fuel : Nat) : Prop :=
  ∀ {d : Nat} {t rest : Text} {j : Json}, value? fuel d t = some (j, rest) →
    j.weight + textWeight rest ≤ textWeight t

def WeighsItems (fuel : Nat) : Prop :=
  ∀ {d : Nat} {t rest : Text} {items : List Json}, items? fuel d t = some (items, rest) →
    weightAll items + textWeight rest ≤ textWeight t

def WeighsMembers (fuel : Nat) : Prop :=
  ∀ {d : Nat} {t rest : Text} {fields : List (Text × Json)},
    members? fuel d t = some (fields, rest) →
      weightFields fields + textWeight rest ≤ textWeight t

theorem weighsValues_succ {fuel : Nat} (hitems : WeighsItems fuel)
    (hmembers : WeighsMembers fuel) : WeighsValues (fuel + 1) := by
  intro d t rest j h
  have hgaps := textWeight_skipGaps_le t
  rw [value?] at h
  split at h
  · cases h
  · next behind heq =>
    obtain ⟨p, hbody, hp⟩ := Option.map_eq_some_iff.mp h
    cases hp
    have hstring := stringWeight_le hbody
    rw [heq, textWeight_cons] at hgaps
    rw [weight]
    omega
  · next behind heq =>
    have hbehind := textWeight_skipGaps_le behind
    rw [heq, textWeight_cons] at hgaps
    split at h
    · cases h
    · next hclose =>
      cases h
      rw [hclose, textWeight_cons] at hbehind
      rw [weight, weightAll]
      omega
    · obtain ⟨p, hread, hp⟩ := Option.map_eq_some_iff.mp h
      cases hp
      have hweight := hitems hread
      rw [weight]
      omega
  · next behind heq =>
    have hbehind := textWeight_skipGaps_le behind
    rw [heq, textWeight_cons] at hgaps
    split at h
    · cases h
    · next hclose =>
      cases h
      rw [hclose, textWeight_cons] at hbehind
      rw [weight, weightFields]
      omega
    · obtain ⟨p, hread, hp⟩ := Option.map_eq_some_iff.mp h
      cases hp
      have hweight := hmembers hread
      have hlist := weightFields_ofList_le p.1
      rw [weight]
      omega
  · next heq => exact weight_of_keyword heq h (by decide)
  · next heq => exact weight_of_keyword heq h (by decide)
  · next heq => exact weight_of_keyword heq h (by decide)
  · exact Nat.le_trans (weight_of_number h) hgaps

theorem weighsItems_succ {fuel : Nat} (hvalues : WeighsValues fuel) (hitems : WeighsItems fuel) :
    WeighsItems (fuel + 1) := by
  intro d t rest items h
  rw [items?] at h
  split at h
  · cases h
  next j behind hread =>
  have hvalue := hvalues hread
  have hgaps := textWeight_skipGaps_le behind
  split at h
  · next heq =>
    obtain ⟨p, hothers, hp⟩ := Option.map_eq_some_iff.mp h
    cases hp
    have hweight := hitems hothers
    rw [heq, textWeight_cons] at hgaps
    rw [weightAll]
    omega
  · next heq =>
    cases h
    rw [heq, textWeight_cons] at hgaps
    rw [weightAll, weightAll]
    omega
  · cases h

theorem weighsMembers_succ {fuel : Nat} (hvalues : WeighsValues fuel)
    (hmembers : WeighsMembers fuel) : WeighsMembers (fuel + 1) := by
  intro d t rest fields h
  have hstart := textWeight_skipGaps_le t
  rw [members?] at h
  split at h
  · next behindQuote hquote =>
    rw [hquote, textWeight_cons] at hstart
    split at h
    · cases h
    next key behindKey hkey =>
    have hkeyWeight := stringWeight_le hkey
    have hgap := textWeight_skipGaps_le behindKey
    split at h
    · next behindColon hcolon =>
      rw [hcolon, textWeight_cons] at hgap
      split at h
      · cases h
      next j behindValue hread =>
      have hvalue := hvalues hread
      have hend := textWeight_skipGaps_le behindValue
      split at h
      · next hcomma =>
        obtain ⟨p, hothers, hp⟩ := Option.map_eq_some_iff.mp h
        cases hp
        have hweight := hmembers hothers
        rw [hcomma, textWeight_cons] at hend
        rw [weightFields]
        omega
      · next hclose =>
        cases h
        rw [hclose, textWeight_cons] at hend
        rw [weightFields, weightFields]
        omega
      · cases h
    · cases h
  · cases h

theorem weighs (fuel : Nat) : WeighsValues fuel ∧ WeighsItems fuel ∧ WeighsMembers fuel := by
  induction fuel with
  | zero =>
    refine ⟨fun h => ?_, fun h => ?_, fun h => ?_⟩
    · rw [value?] at h; cases h
    · rw [items?] at h; cases h
    · rw [members?] at h; cases h
  | succ fuel ih =>
    obtain ⟨hvalues, hitems, hmembers⟩ := ih
    exact ⟨weighsValues_succ hitems hmembers, weighsItems_succ hvalues hitems,
      weighsMembers_succ hvalues hmembers⟩

/-- A value is not heavier than the text that it is read from. -/
theorem weight_le_of_read? {t : Text} {j : Json} (h : read? t = some j) :
    j.weight ≤ textWeight t := by
  unfold read? at h
  split at h
  · next k rest hread =>
    split at h
    · cases h
      have hweight := (weighs _).1 hread
      omega
    · cases h
  · cases h

/-! ## Weight and equality -/

/-- The members of an object without the one under a key that it has. -/
theorem exists_without {fields : List (Text × Json)} {key : Text} {j : Json}
    (h : Keyed.get? fields key = some j) :
    ∃ others, weightFields fields = stringWeight key + j.weight + weightFields others ∧
      ∀ other, other ≠ key → Keyed.get? others other = Keyed.get? fields other := by
  induction fields with
  | nil => cases h
  | cons p fields ih =>
    obtain ⟨k, v⟩ := p
    rw [Keyed.get?] at h
    split at h
    · next hk =>
      cases h
      refine ⟨fields, by rw [weightFields, hk], fun other hother => ?_⟩
      rw [Keyed.get?, if_neg (fun he => hother (he.symm.trans hk))]
    · next hk =>
      obtain ⟨others, hweight, hget⟩ := ih h
      refine ⟨(k, v) :: others, ?_, fun other hother => ?_⟩
      · simp only [weightFields]
        omega
      · rw [Keyed.get?, Keyed.get?, hget other hother]

theorem sameMembers_of_get? {fields others others' : List (Text × Json)}
    (h : ∀ key ∈ Keyed.keys fields, Keyed.get? others' key = Keyed.get? others key)
    (hsame : sameMembers fields others = true) : sameMembers fields others' = true := by
  induction fields with
  | nil => rfl
  | cons p fields ih =>
    obtain ⟨key, j⟩ := p
    rw [sameMembers, Bool.and_eq_true] at hsame ⊢
    refine ⟨?_, ih (fun k hk => h k (List.mem_cons_of_mem _ hk)) hsame.2⟩
    rw [h key List.mem_cons_self]
    exact hsame.1

mutual

theorem weight_le_of_same {j k : Json} (hplain : j.Plain) (h : same j k = true) :
    j.weight ≤ k.weight := by
  cases j with
  | null =>
    cases k with
    | null => exact Nat.le_refl _
    | _ => cases h
  | bool b =>
    cases k with
    | bool c =>
      rw [same, beq_iff_eq] at h
      exact Nat.le_of_eq (by rw [h])
    | _ => cases h
  | int n => exact Nat.zero_le _
  | float x => exact Nat.zero_le _
  | str s =>
    cases k with
    | str t =>
      rw [same, beq_iff_eq] at h
      exact Nat.le_of_eq (by rw [h])
    | _ => cases h
  | arr items =>
    cases k with
    | arr others => exact weightAll_le_of_same hplain h
    | _ => cases h
  | obj fields =>
    cases k with
    | obj others =>
      rw [same, Bool.and_eq_true] at h
      exact weightFields_le_of_same hplain.1 hplain.2 h.2
    | _ => cases h

theorem weightAll_le_of_same {js ks : List Json} (hplain : PlainAll js)
    (h : sameItems js ks = true) : weightAll js ≤ weightAll ks := by
  cases js with
  | nil => exact Nat.zero_le _
  | cons j js =>
    cases ks with
    | nil => cases h
    | cons k ks =>
      rw [sameItems, Bool.and_eq_true] at h
      have hhead := weight_le_of_same hplain.1 h.1
      have htail := weightAll_le_of_same hplain.2 h.2
      simp only [weightAll]
      omega

theorem weightFields_le_of_same {fields others : List (Text × Json)}
    (hkeys : (Keyed.keys fields).Nodup) (hplain : PlainFields fields)
    (h : sameMembers fields others = true) : weightFields fields ≤ weightFields others := by
  cases fields with
  | nil => exact Nat.zero_le _
  | cons p fields =>
    obtain ⟨key, j⟩ := p
    obtain ⟨hkey, hkeys⟩ := List.nodup_cons.mp hkeys
    rw [sameMembers, Bool.and_eq_true] at h
    obtain ⟨hhead, htail⟩ := h
    split at hhead
    · next k hget =>
      -- the member is taken out of the other object, so that no member is counted for two
      obtain ⟨others', hweight, hothers⟩ := exists_without hget
      have hother : ∀ other ∈ Keyed.keys fields,
          Keyed.get? others' other = Keyed.get? others other := by
        intro other hmem
        refine hothers other ?_
        rintro rfl
        exact hkey hmem
      have hj := weight_le_of_same hplain.1 hhead
      have hfields := weightFields_le_of_same hkeys hplain.2 (sameMembers_of_get? hother htail)
      rw [weightFields]
      omega
    · cases hhead

end

/-! ## Weight of the text of a value -/

theorem textWeight_ofInt (n : Int) : textWeight (Text.ofInt n) = 0 := by
  have hdigits : textWeight (Text.ofNat n.natAbs) = 0 := by
    refine List.countP_eq_zero.mpr fun c hc hheavy => ?_
    have hdigit := isDigit_of_mem_ofNat hc
    simp only [isHeavy, Bool.or_eq_true, decide_eq_true_eq] at hheavy
    rcases hheavy with (rfl | rfl) | rfl <;> exact absurd hdigit (by decide)
  unfold Text.ofInt
  split
  · rw [textWeight_cons, hdigits]
    rfl
  · exact hdigits

theorem textWeight_quoted (s : Text) : textWeight (quoted s) = stringWeight s := by
  rw [quoted, textWeight_cons, textWeight_append]
  rfl

mutual

/-- A plain value is written with its weight. -/
theorem textWeight_text {j : Json} (h : j.Plain) : textWeight j.text = j.weight := by
  cases j with
  | null => rfl
  | bool b => cases b <;> rfl
  | int n => exact textWeight_ofInt n
  | float x => exact absurd h id
  | str s => exact textWeight_quoted s
  | arr items =>
    rw [text, textWeight_cons, textWeight_append, textWeight_itemsText h]
    rfl
  | obj fields =>
    rw [text, textWeight_cons, textWeight_append, textWeight_fieldsText h.2]
    rfl

theorem textWeight_itemsText {items : List Json} (h : PlainAll items) :
    textWeight (itemsText items) = weightAll items := by
  cases items with
  | nil => rfl
  | cons j js =>
    have hj := textWeight_text h.1
    have hjs := textWeight_itemsText h.2
    cases js with
    | nil => exact hj
    | cons k js =>
      rw [itemsText_cons, textWeight_append, textWeight_cons, hj, hjs]
      rfl

theorem textWeight_fieldsText {fields : List (Text × Json)} (h : PlainFields fields) :
    textWeight (fieldsText fields) = weightFields fields := by
  cases fields with
  | nil => rfl
  | cons p fields =>
    obtain ⟨key, j⟩ := p
    have hj := textWeight_text h.1
    have hfields := textWeight_fieldsText h.2
    cases fields with
    | nil =>
      rw [fieldsText, textWeight_append, textWeight_cons, textWeight_quoted, hj]
      rfl
    | cons q fields =>
      have hcolon : isHeavy ':' = false := rfl
      have hcomma : isHeavy ',' = false := rfl
      rw [fieldsText_cons, weightFields]
      simp only [textWeight_append, textWeight_cons, textWeight_quoted, hj, hfields, hcolon, hcomma,
        Bool.false_eq_true, if_false]
      omega

end

end LiveMarkup.Json
