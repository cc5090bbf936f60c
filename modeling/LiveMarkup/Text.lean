/-!
# Text

Text is a list of characters. Offsets into it count the bytes of its UTF-8 form, so that a span
names the same stretch of a file whichever program reads it. Two notions of blank are kept
apart: the five ASCII spaces that separate attributes, and the characters of the Unicode
`White_Space` property that trimming removes.
-/

namespace LiveMarkup

/-- A text, as the characters it holds. -/
abbrev Text := List Char

namespace Text

/-- The text as a string, for messages. -/
def str (t : Text) : String := String.ofList t

/-- How many bytes the UTF-8 form of `t` takes. -/
def bytes (t : Text) : Nat := t.foldr (fun c n => c.utf8Size + n) 0

@[simp] theorem bytes_nil : bytes [] = 0 := rfl

@[simp] theorem bytes_cons (c : Char) (t : Text) : bytes (c :: t) = c.utf8Size + bytes t :=
  rfl

@[simp] theorem bytes_append (s t : Text) : bytes (s ++ t) = bytes s + bytes t := by
  induction s with
  | nil => simp
  | cons c s ih => simp [ih, Nat.add_assoc]

/-! ## Character classes -/

/-- Space, tab, line feed, form feed and carriage return. -/
def isSpace (c : Char) : Bool :=
  c = ' ' || c = '\t' || c = '\n' || c = '\x0C' || c = '\r'

/-- The Unicode `White_Space` property. -/
def isBlank (c : Char) : Bool :=
  let n := c.toNat
  (9 ≤ n && n ≤ 13) || n = 0x20 || n = 0x85 || n = 0xA0 || n = 0x1680 ||
    (0x2000 ≤ n && n ≤ 0x200A) || n = 0x2028 || n = 0x2029 || n = 0x202F || n = 0x205F ||
    n = 0x3000

/-- Every ASCII space is blank. -/
theorem isBlank_of_isSpace {c : Char} (h : isSpace c = true) : isBlank c = true := by
  simp only [isSpace, Bool.or_eq_true, decide_eq_true_eq] at h
  rcases h with (((h | h) | h) | h) | h <;> subst h <;> rfl

/-- An ASCII letter or digit. -/
def isAlphanum (c : Char) : Bool := c.isAlpha || c.isDigit

/-! ## Case -/

/-- `t` with its ASCII letters in lower case; other letters keep theirs. -/
def lower (t : Text) : Text := t.map Char.toLower

/-- The two texts differ at most in the case of ASCII letters. -/
def sameLetters (s t : Text) : Bool := lower s == lower t

/-! ## Cutting -/

/-- What follows `lead`, when `t` starts with it. -/
def after? (lead : Text) (t : Text) : Option Text :=
  match lead, t with
  | [], t => some t
  | _ :: _, [] => none
  | l :: lead, c :: t => if l = c then after? lead t else none

theorem eq_append_of_after? {lead t rest : Text} (h : after? lead t = some rest) :
    t = lead ++ rest := by
  induction lead generalizing t with
  | nil => simpa [after?] using h
  | cons l lead ih =>
    cases t with
    | nil => simp [after?] at h
    | cons c t =>
      simp only [after?] at h
      split at h
      · next hl => rw [hl, List.cons_append, ih h]
      · contradiction

theorem after?_append (lead t : Text) : after? lead (lead ++ t) = some t := by
  induction lead with
  | nil => simp [after?]
  | cons l lead ih => simpa [after?] using ih

/-- `t` starts with `lead` once its ASCII letters are put in lower case. -/
def startsLowered (lead : Text) (t : Text) : Bool :=
  match lead, t with
  | [], _ => true
  | _ :: _, [] => false
  | l :: lead, c :: t => l = c.toLower && startsLowered lead t

/-- The text before the first `mark` and the text after it. -/
def cut? (mark : Text) : Text → Option (Text × Text)
  | [] => (after? mark []).map fun rest => ([], rest)
  | c :: t =>
    match after? mark (c :: t) with
    | some rest => some ([], rest)
    | none => (cut? mark t).map fun p => (c :: p.1, p.2)

theorem eq_append_of_cut? {mark t before rest : Text} (h : cut? mark t = some (before, rest)) :
    t = before ++ (mark ++ rest) := by
  induction t generalizing before with
  | nil =>
    simp only [cut?, Option.map_eq_some_iff, Prod.mk.injEq] at h
    obtain ⟨r, hr, rfl, rfl⟩ := h
    simpa using eq_append_of_after? hr
  | cons c t ih =>
    simp only [cut?] at h
    split at h
    · next r hr =>
      simp only [Option.some.injEq, Prod.mk.injEq] at h
      obtain ⟨rfl, rfl⟩ := h
      simpa using eq_append_of_after? hr
    · simp only [Option.map_eq_some_iff, Prod.mk.injEq] at h
      obtain ⟨⟨b, r⟩, hb, rfl, rfl⟩ := h
      simp [ih hb]

/-- `mark` stands somewhere in `t`. -/
def holds (mark t : Text) : Bool := (cut? mark t).isSome

/-- The text before the first `c` and the text after it. -/
def cutAt? (c : Char) : Text → Option (Text × Text)
  | [] => none
  | d :: t => if d = c then some ([], t) else (cutAt? c t).map fun p => (d :: p.1, p.2)

theorem eq_append_of_cutAt? {c : Char} {t before rest : Text}
    (h : cutAt? c t = some (before, rest)) : t = before ++ c :: rest := by
  induction t generalizing before with
  | nil => simp [cutAt?] at h
  | cons d t ih =>
    simp only [cutAt?] at h
    split at h
    · next hd =>
      simp only [Option.some.injEq, Prod.mk.injEq] at h
      obtain ⟨rfl, rfl⟩ := h
      simp [hd]
    · simp only [Option.map_eq_some_iff, Prod.mk.injEq] at h
      obtain ⟨⟨b, r⟩, hb, rfl, rfl⟩ := h
      simp [ih hb]

/-- The first `c` behind a text without it. -/
theorem cutAt?_append {c : Char} {s : Text} (h : c ∉ s) (t : Text) :
    cutAt? c (s ++ c :: t) = some (s, t) := by
  induction s with
  | nil => simp [cutAt?]
  | cons d s ih =>
    obtain ⟨hd, hs⟩ := not_or.mp (mt List.mem_cons.mpr h)
    simp [cutAt?, Ne.symm hd, ih hs]

theorem not_mem_of_cutAt? {c : Char} {t before rest : Text} (h : cutAt? c t = some (before, rest)) :
    c ∉ before := by
  induction t generalizing before with
  | nil => simp [cutAt?] at h
  | cons d t ih =>
    simp only [cutAt?] at h
    split at h
    · simp only [Option.some.injEq, Prod.mk.injEq] at h
      simp [← h.1]
    · next hd =>
      simp only [Option.map_eq_some_iff, Prod.mk.injEq] at h
      obtain ⟨⟨b, r⟩, hb, rfl, rfl⟩ := h
      simp only [List.mem_cons, not_or]
      exact ⟨Ne.symm hd, ih hb⟩

/-- The stretches of `t` between the characters `c`: always one more than there are `c`s. -/
def splitAt (c : Char) : Text → List Text
  | [] => [[]]
  | d :: t =>
    if d = c then [] :: splitAt c t
    else
      match splitAt c t with
      | [] => [[d]]
      | first :: others => (d :: first) :: others

/-- `t` without the blanks at its end. -/
def trimEnd (t : Text) : Text := (t.reverse.dropWhile isBlank).reverse

/-- `t` without the blanks at either end. -/
def trim (t : Text) : Text := trimEnd (t.dropWhile isBlank)

/-- `t` with every `old` turned into `new`. -/
def replaceChar (old : Char) (new : Text) (t : Text) : Text :=
  t.flatMap fun c => if c = old then new else [c]

/-- The texts one after the other with `mark` between neighbours. -/
def join (mark : Text) : List Text → Text
  | [] => []
  | [t] => t
  | t :: ts => t ++ (mark ++ join mark ts)

/-- `t` followed by spaces up to `width` characters. -/
def padRight (width : Nat) (t : Text) : Text := t ++ List.replicate (width - t.length) ' '

/-- `t` preceded by spaces up to `width` characters. -/
def padLeft (width : Nat) (t : Text) : Text := List.replicate (width - t.length) ' ' ++ t

/-! ## Digits and order -/

/-- The value of a decimal digit. -/
def digitValue (c : Char) : Nat := c.toNat - '0'.toNat

/-- The number that a run of decimal digits denotes. -/
def digitsValue (ds : Text) : Nat := ds.foldl (fun n c => 10 * n + digitValue c) 0

/-- The decimal digits of `n`. -/
def ofNat (n : Nat) : Text := Nat.toDigits 10 n

/-- The decimal digits of `n`, after a minus sign when it is negative. -/
def ofInt (n : Int) : Text := if n < 0 then '-' :: ofNat n.natAbs else ofNat n.natAbs

/-- Order by code points, which is also the order of the UTF-8 bytes. -/
def le : Text → Text → Bool
  | [], _ => true
  | _ :: _, [] => false
  | c :: s, d :: t => c < d || (c = d && le s t)

end Text

/-- A stretch of a text: byte offsets of its start and of the place just after it. -/
structure Span where
  start : Nat
  stop : Nat
  deriving DecidableEq, Repr, Inhabited

end LiveMarkup
