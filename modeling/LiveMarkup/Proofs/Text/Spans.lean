import LiveMarkup.Text

/-!
# Spans

A reader that takes characters of a class off the front takes exactly a given stretch when the
stretch is of the class and what follows it does not go on in the class. A reader that looks for a
mark takes exactly a given stretch when the mark is not in it and cannot begin in it.
-/

namespace LiveMarkup.Text

/-- `t` does not start with a character of the class. -/
def Stops (p : Char → Bool) (t : Text) : Prop := ∀ c ∈ t.head?, p c = false

variable {p : Char → Bool} {s t : Text}

@[simp] theorem stops_nil : Stops p [] := by
  simp [Stops]

@[simp] theorem stops_cons {c : Char} : Stops p (c :: t) ↔ p c = false := by
  simp [Stops]

theorem stops_dropWhile (p : Char → Bool) (t : Text) : Stops p (t.dropWhile p) := by
  intro c hc
  have hnot := List.head?_dropWhile_not p t
  rw [Option.mem_def.mp hc] at hnot
  exact hnot

theorem takeWhile_append_of_stops (hs : ∀ c ∈ s, p c = true) (ht : Stops p t) :
    (s ++ t).takeWhile p = s := by
  rw [List.takeWhile_append_of_pos hs]
  cases t with
  | nil => simp
  | cons c t => simp [stops_cons.mp ht]

theorem dropWhile_append_of_stops (hs : ∀ c ∈ s, p c = true) (ht : Stops p t) :
    (s ++ t).dropWhile p = t := by
  rw [List.dropWhile_append_of_pos hs]
  cases t with
  | nil => rfl
  | cons c t => simp [stops_cons.mp ht]

/-- What follows does not go on in the class, so the stretch ends where it ends by itself. -/
theorem takeWhile_append (s : Text) (ht : Stops p t) : (s ++ t).takeWhile p = s.takeWhile p := by
  have htake : t.takeWhile p = [] := by
    cases t with
    | nil => rfl
    | cons c t => simp [stops_cons.mp ht]
  rw [List.takeWhile_append, htake]
  split
  · next hlength =>
    rw [List.append_nil]
    exact ((List.takeWhile_prefix _).eq_of_length hlength).symm
  · rfl

theorem dropWhile_append (s : Text) (ht : Stops p t) :
    (s ++ t).dropWhile p = s.dropWhile p ++ t := by
  have hsplit := List.takeWhile_append_dropWhile (p := p) (l := s ++ t)
  rw [takeWhile_append s ht] at hsplit
  conv at hsplit => rhs; rw [← List.takeWhile_append_dropWhile (p := p) (l := s)]
  rw [List.append_assoc] at hsplit
  exact List.append_cancel_left hsplit

theorem isEmpty_trim_of_not_blank {c : Char} (h : isBlank c = false) (t : Text) :
    (trim (c :: t)).isEmpty = false := by
  have hdrop : (c :: t).dropWhile isBlank = c :: t := by simp [h]
  have hlast : [c].dropWhile isBlank = [c] := by simp [h]
  rw [trim, hdrop, trimEnd, List.reverse_cons, List.dropWhile_append, hlast]
  split
  · rfl
  · simp

/-! ## Letters and digits -/

theorem isAlphanum_iff {c : Char} : isAlphanum c = true ↔
    (65 ≤ c.toNat ∧ c.toNat ≤ 90) ∨ (97 ≤ c.toNat ∧ c.toNat ≤ 122) ∨
      (48 ≤ c.toNat ∧ c.toNat ≤ 57) := by
  have hclasses : isAlphanum c = (decide (c.val ≥ 'A'.val ∧ c.val ≤ 'Z'.val) ||
      (decide (c.val ≥ 'a'.val) && decide (c.val ≤ 'z'.val)) ||
      (decide (c.val ≥ '0'.val) && decide (c.val ≤ '9'.val))) := rfl
  simp only [hclasses, Bool.or_eq_true, Bool.and_eq_true, decide_eq_true_eq, ge_iff_le,
    UInt32.le_iff_toNat_le, or_assoc]
  rfl

theorem isAlphanum_of_isLower {c : Char} (h : c.isLower = true) : isAlphanum c = true :=
  Bool.or_eq_true_iff.mpr (.inl (Bool.or_eq_true_iff.mpr (.inr h)))

theorem isAlphanum_of_isDigit {c : Char} (h : c.isDigit = true) : isAlphanum c = true :=
  Bool.or_eq_true_iff.mpr (.inr h)

theorem isBlank_of_isAlphanum {c : Char} (h : isAlphanum c = true) : isBlank c = false := by
  rw [isAlphanum_iff] at h
  simp only [isBlank, Bool.or_eq_false_iff, Bool.and_eq_false_iff, decide_eq_false_iff_not]
  omega

/-- Only letters become letters in lower case. -/
theorem isAlpha_of_toLower {c : Char} (h : c.toLower.isAlpha = true) : c.isAlpha = true := by
  by_cases hupper : c.isUpper = true
  · exact Bool.or_eq_true_iff.mpr (.inl hupper)
  · have hsame : c.toLower = c := dif_neg fun hrange => hupper (decide_eq_true hrange)
    rwa [hsame] at h

/-- A character that is no lower-case letter is only itself in lower case. -/
theorem eq_of_toLower {c d : Char} (h : c.toLower = d) (hd : d.isLower = false) : c = d := by
  by_cases hupper : c.val ≥ 'A'.val ∧ c.val ≤ 'Z'.val
  · have hval : c.val + 32 = d.val := congrArg Char.val ((dif_pos hupper).symm.trans h)
    have hlow : 65 ≤ c.val.toNat := UInt32.le_iff_toNat_le.mp hupper.1
    have hhigh : c.val.toNat ≤ 90 := UInt32.le_iff_toNat_le.mp hupper.2
    have hsum : d.val.toNat = c.val.toNat + 32 := by
      rw [← hval, UInt32.toNat_add]
      exact Nat.mod_eq_of_lt (Nat.lt_of_le_of_lt (Nat.add_le_add_right hhigh 32) (by decide))
    have hlower : d.isLower = true := by
      refine Bool.and_eq_true_iff.mpr ⟨decide_eq_true ?_, decide_eq_true ?_⟩
      · exact UInt32.le_iff_toNat_le.mpr (hsum ▸ Nat.add_le_add_right hlow 32)
      · exact UInt32.le_iff_toNat_le.mpr (hsum ▸ Nat.add_le_add_right hhigh 32)
    rw [hd] at hlower
    contradiction
  · exact (dif_neg hupper).symm.trans h

theorem toLower_toLower (c : Char) : c.toLower.toLower = c.toLower := by
  cases hlower : c.toLower.isLower with
  | true =>
    refine dif_neg fun hupper => ?_
    have hle : 'a'.val ≤ 'Z'.val :=
      UInt32.le_trans (of_decide_eq_true (Bool.and_eq_true_iff.mp hlower).1) hupper.2
    exact absurd hle (by decide)
  | false => exact (congrArg Char.toLower (eq_of_toLower rfl hlower)).symm

theorem lower_lower (t : Text) : lower (lower t) = lower t := by
  rw [lower, lower, List.map_map]
  exact List.map_congr_left fun c _ => toLower_toLower c

/-! ## Marks -/

/-- A prefix without `c` ends before the `c`. -/
theorem prefix_of_prefix_append_cons {c : Char} {lead : Text} (hlead : c ∉ lead)
    (h : lead <+: s ++ c :: t) : lead <+: s := by
  induction s generalizing lead with
  | nil =>
    cases lead with
    | nil => exact List.nil_prefix
    | cons l lead =>
      rw [List.nil_append, List.cons_prefix_cons] at h
      exact absurd (h.1 ▸ List.mem_cons_self) hlead
  | cons d s ih =>
    cases lead with
    | nil => exact List.nil_prefix
    | cons l lead =>
      rw [List.cons_append, List.cons_prefix_cons] at h
      exact List.cons_prefix_cons.mpr ⟨h.1, ih (mt (List.mem_cons_of_mem l) hlead) h.2⟩

/-- A stretch without `c` lies before the `c` or behind it. -/
theorem infix_of_infix_append_cons {c : Char} {mark : Text} (hmark : c ∉ mark)
    (h : mark <:+: s ++ c :: t) : mark <:+: s ∨ mark <:+: t := by
  induction s with
  | nil =>
    rw [List.nil_append, List.infix_cons_iff] at h
    refine h.imp_left fun hpre => ?_
    exact (prefix_of_prefix_append_cons (s := []) hmark hpre).isInfix
  | cons d s ih =>
    rw [List.cons_append, List.infix_cons_iff] at h
    rcases h with hpre | h
    · exact .inl (prefix_of_prefix_append_cons (s := d :: s) hmark hpre).isInfix
    · exact (ih h).imp_left List.infix_cons

theorem after?_eq_none_iff {lead : Text} : after? lead t = none ↔ ¬lead <+: t := by
  induction lead generalizing t with
  | nil => simp [after?]
  | cons l lead ih =>
    cases t with
    | nil => simp [after?]
    | cons c t =>
      by_cases hl : l = c
      · simp [after?, hl, ih]
      · simp [after?, hl]

theorem startsLowered_iff {lead : Text} : startsLowered lead t = true ↔ lead <+: lower t := by
  induction lead generalizing t with
  | nil => simp [startsLowered]
  | cons l lead ih =>
    cases t with
    | nil => simp [startsLowered, lower]
    | cons c t =>
      simp only [startsLowered, Bool.and_eq_true, decide_eq_true_eq, ih, lower, List.map_cons,
        List.cons_prefix_cons]

/-- A character that is not a lower case letter stands at the start as it is. -/
theorem exists_of_startsLowered {l : Char} {lead t : Text} (hl : l.isLower = false)
    (h : startsLowered (l :: lead) t = true) :
    ∃ t', t = l :: t' ∧ startsLowered lead t' = true := by
  cases t with
  | nil => cases h
  | cons c t =>
    rw [startsLowered, Bool.and_eq_true, decide_eq_true_eq] at h
    exact ⟨t, by rw [eq_of_toLower h.1.symm hl], h.2⟩

theorem cut?_eq_none_iff {mark : Text} : cut? mark t = none ↔ ¬mark <:+: t := by
  induction t with
  | nil =>
    rw [cut?, Option.map_eq_none_iff, after?_eq_none_iff, List.prefix_nil, List.infix_nil]
  | cons c t ih =>
    rw [cut?, List.infix_cons_iff, not_or, ← after?_eq_none_iff]
    cases hafter : after? mark (c :: t) with
    | none => simp [ih]
    | some rest => simp

theorem holds_iff {mark : Text} : holds mark t = true ↔ mark <:+: t := by
  rw [holds, Option.isSome_iff_ne_none, ne_eq, cut?_eq_none_iff, Classical.not_not]

/-- The text before the first mark does not hold it. -/
theorem not_infix_of_cut? {mark before rest : Text} (hmark : mark ≠ [])
    (h : cut? mark t = some (before, rest)) : ¬mark <:+: before := by
  induction t generalizing before with
  | nil =>
    cases mark with
    | nil => contradiction
    | cons l mark => simp [cut?, after?] at h
  | cons c t ih =>
    rw [cut?] at h
    cases hafter : after? mark (c :: t) with
    | some r =>
      rw [hafter] at h
      cases h
      simpa using hmark
    | none =>
      rw [hafter] at h
      simp only [Option.map_eq_some_iff, Prod.mk.injEq] at h
      obtain ⟨⟨b, r⟩, hb, rfl, rfl⟩ := h
      rw [List.infix_cons_iff, not_or]
      refine ⟨fun hpre => ?_, ih hb⟩
      have ht := eq_append_of_cut? hb
      exact after?_eq_none_iff.mp hafter
        (hpre.trans (by rw [ht]; exact List.prefix_append (c :: b) _))

end LiveMarkup.Text
