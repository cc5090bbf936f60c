import LiveMarkup.Text

/-!
# The bytes of a text

The UTF-8 form of a text, and what a reader of bytes can tell from it: a byte below 128 is never
part of a longer character, so that a reader that looks for such bytes only stops where characters
begin.
-/

namespace LiveMarkup

namespace Text

/-- The UTF-8 form of a text. -/
def utf8 (t : Text) : List UInt8 := t.flatMap String.utf8EncodeChar

@[simp] theorem utf8_nil : utf8 [] = [] := rfl

@[simp] theorem utf8_cons (c : Char) (t : Text) :
    utf8 (c :: t) = String.utf8EncodeChar c ++ utf8 t :=
  rfl

@[simp] theorem utf8_append (s t : Text) : utf8 (s ++ t) = utf8 s ++ utf8 t :=
  List.flatMap_append

@[simp] theorem length_utf8 (t : Text) : (utf8 t).length = bytes t := by
  induction t with
  | nil => rfl
  | cons c t ih => rw [utf8_cons, List.length_append, String.length_utf8EncodeChar, ih, bytes_cons]

/-- Of two prefixes of a text the one with fewer bytes is a prefix of the other. -/
theorem prefix_of_bytes_le {s t u : Text} (hs : s <+: u) (ht : t <+: u) (h : bytes s ≤ bytes t) :
    s <+: t := by
  rcases List.prefix_or_prefix_of_prefix hs ht with hst | ⟨v, rfl⟩
  · exact hst
  · cases v with
    | nil => simp
    | cons c v =>
      have hc := c.utf8Size_pos
      rw [bytes_append, bytes_cons] at h
      omega

/-- A byte below 128 is a character by itself. -/
theorem utf8EncodeChar_of_mem {c : Char} {b : UInt8} (hb : b.toNat < 128)
    (h : b ∈ String.utf8EncodeChar c) : c.toNat = b.toNat ∧ String.utf8EncodeChar c = [b] := by
  have hval : c.toNat = c.val.toNat := rfl
  unfold String.utf8EncodeChar at h ⊢
  dsimp only at h ⊢
  by_cases hascii : c.val.toNat ≤ 127
  · rw [if_pos hascii] at h ⊢
    rw [List.mem_singleton] at h
    subst h
    refine ⟨?_, rfl⟩
    rw [hval, UInt8.toNat_ofNat']
    omega
  · -- all bytes of a longer character have their highest bit set
    exfalso
    rw [if_neg hascii] at h
    split at h
    · simp only [List.mem_cons, List.not_mem_nil, or_false] at h
      rcases h with rfl | rfl <;> rw [UInt8.toNat_ofNat'] at hb <;> omega
    split at h
    · simp only [List.mem_cons, List.not_mem_nil, or_false] at h
      rcases h with rfl | rfl | rfl <;> rw [UInt8.toNat_ofNat'] at hb <;> omega
    · simp only [List.mem_cons, List.not_mem_nil, or_false] at h
      rcases h with rfl | rfl | rfl | rfl <;> rw [UInt8.toNat_ofNat'] at hb <;> omega

/-- The byte of an ASCII character is in no other character. -/
theorem ne_of_mem_utf8EncodeChar {c d : Char} {a b : UInt8} (hb : b.toNat < 128)
    (hd : d.toNat = b.toNat) (hne : c ≠ d) (ha : a ∈ String.utf8EncodeChar c) : a ≠ b := by
  rintro rfl
  have hc := (utf8EncodeChar_of_mem hb ha).1
  exact hne (Char.toNat_inj.mp (hc.trans hd.symm))

/-- A text whose first byte is below 128 starts with the character of that byte. -/
theorem head?_of_head?_utf8 {t : Text} {b : UInt8} (hb : b.toNat < 128)
    (h : (utf8 t).head? = some b) : ∃ c ∈ t.head?, c.toNat = b.toNat := by
  cases t with
  | nil => cases h
  | cons c t =>
    refine ⟨c, rfl, ?_⟩
    apply (utf8EncodeChar_of_mem hb (c := c) _).1
    rw [utf8_cons] at h
    cases hbytes : String.utf8EncodeChar c with
    | nil =>
      have hlength := String.length_utf8EncodeChar c
      rw [hbytes] at hlength
      exact absurd hlength (Nat.ne_of_lt c.utf8Size_pos)
    | cons d ds =>
      rw [hbytes] at h
      cases h
      exact List.mem_cons_self

end Text

namespace Span

/-- The span is the stretch `inside` of the text `t`. -/
def Holds (span : Span) (t inside : Text) : Prop :=
  ∃ before after, t = before ++ (inside ++ after) ∧
    span = ⟨Text.bytes before, Text.bytes before + Text.bytes inside⟩

/-- The bytes of the span. -/
def cut (span : Span) (bytes : List UInt8) : List UInt8 :=
  (bytes.drop span.start).take (span.stop - span.start)

end Span

end LiveMarkup
