import LiveMarkup.Text
import Mathlib.Data.List.Basic

/-!
# Patterns

Regular expressions over characters, with groups and the end of the text. `Takes` says what a
pattern can take, by whatever choices: a pattern that is repeated may stop anywhere, and either side
of an alternative may be tried first. `IsLeftmost` is the outcome of a search, which tries the
places of a text from left to right.
-/

namespace LiveMarkup

/-- A class of characters: those in one of the ranges, or those in none of them. -/
structure CharClass where
  ranges : List (Char × Char)
  negated : Bool := false

namespace CharClass

/-- The character lies in a range. -/
def inRange (c : Char) (range : Char × Char) : Bool :=
  decide (range.1.toNat ≤ c.toNat) && decide (c.toNat ≤ range.2.toNat)

/-- The character is in the class. -/
def holds (s : CharClass) (c : Char) : Bool := s.negated != s.ranges.any (inRange c)

/-- The given characters and no others. -/
def only (cs : List Char) : CharClass := { ranges := cs.map fun c => (c, c) }

/-- All characters but the given ones. -/
def except (cs : List Char) : CharClass := { only cs with negated := true }

theorem inRange_self (c d : Char) : inRange c (d, d) = decide (c = d) := by
  simp only [inRange]
  rw [← Bool.decide_and, decide_eq_decide, ← Char.toNat_inj]
  omega

theorem holds_only {cs : List Char} {c : Char} : (only cs).holds c = true ↔ c ∈ cs := by
  simp only [holds, only, Bool.false_bne, List.any_map, List.any_eq_true, Function.comp_apply,
    inRange_self, decide_eq_true_eq]
  exact ⟨fun ⟨d, hd, heq⟩ => heq ▸ hd, fun hc => ⟨c, hc, rfl⟩⟩

theorem holds_except {cs : List Char} {c : Char} : (except cs).holds c = true ↔ c ∉ cs := by
  have hnot : (except cs).holds c = !(only cs).holds c := by
    simp only [holds, except, only, Bool.true_bne, Bool.false_bne]
  rw [hnot, Bool.not_eq_true', ← Bool.not_eq_true, holds_only]

end CharClass

/-- A pattern. -/
inductive Pattern where
  /-- One character of a class. -/
  | one (s : CharClass)
  | seq (p q : Pattern)
  | or (p q : Pattern)
  /-- The pattern any number of times. -/
  | many (p : Pattern)
  /-- The pattern, whose text is kept. -/
  | group (p : Pattern)
  /-- The end of the text. -/
  | atEnd

namespace Pattern

/-- The pattern once or more. -/
def plus (p : Pattern) : Pattern := .seq p (.many p)

/-- The pattern can take a stretch that has `rest` behind it; `groups` are the texts that are kept,
in the order in which their groups open. -/
inductive Takes : Pattern → (taken rest : Text) → (groups : List Text) → Prop
  | one {s : CharClass} {c : Char} {rest : Text} (h : s.holds c = true) :
    Takes (.one s) [c] rest []
  | seq {p q : Pattern} {t u rest : Text} {gs hs : List Text} (first : Takes p t (u ++ rest) gs)
    (second : Takes q u rest hs) : Takes (.seq p q) (t ++ u) rest (gs ++ hs)
  | left {p q : Pattern} {t rest : Text} {gs : List Text} (h : Takes p t rest gs) :
    Takes (.or p q) t rest gs
  | right {p q : Pattern} {t rest : Text} {gs : List Text} (h : Takes q t rest gs) :
    Takes (.or p q) t rest gs
  | stop {p : Pattern} {rest : Text} : Takes (.many p) [] rest []
  | again {p : Pattern} {t u rest : Text} {gs hs : List Text} (first : Takes p t (u ++ rest) gs)
    (later : Takes (.many p) u rest hs) : Takes (.many p) (t ++ u) rest (gs ++ hs)
  | group {p : Pattern} {t rest : Text} {gs : List Text} (h : Takes p t rest gs) :
    Takes (.group p) t rest (t :: gs)
  | atEnd : Takes .atEnd [] [] []

/-- The pattern matches a stretch of `t` that begins behind `before`. -/
def MatchesAt (p : Pattern) (t before : Text) (groups : List Text) : Prop :=
  ∃ taken rest, t = before ++ (taken ++ rest) ∧ p.Takes taken rest groups

/-- The pattern matches behind `before`, and at no place that comes earlier in the text. -/
structure IsLeftmost (p : Pattern) (t before : Text) (groups : List Text) : Prop where
  matchesAt : p.MatchesAt t before groups
  first : ∀ before' groups', p.MatchesAt t before' groups' → before.length ≤ before'.length

/-! ## What patterns take -/

variable {p q : Pattern} {s : CharClass} {t rest : Text} {gs : List Text}

theorem takes_one_iff : Takes (.one s) t rest gs ↔ ∃ c, s.holds c = true ∧ t = [c] ∧ gs = [] := by
  constructor
  · intro h
    cases h with
    | one h => exact ⟨_, h, rfl, rfl⟩
  · rintro ⟨c, h, rfl, rfl⟩
    exact .one h

theorem takes_seq_iff : Takes (.seq p q) t rest gs ↔ ∃ u v gs₁ gs₂,
    t = u ++ v ∧ gs = gs₁ ++ gs₂ ∧ Takes p u (v ++ rest) gs₁ ∧ Takes q v rest gs₂ := by
  constructor
  · intro h
    cases h with
    | seq first second => exact ⟨_, _, _, _, rfl, rfl, first, second⟩
  · rintro ⟨u, v, gs₁, gs₂, rfl, rfl, first, second⟩
    exact .seq first second

theorem takes_or_iff : Takes (.or p q) t rest gs ↔ Takes p t rest gs ∨ Takes q t rest gs := by
  constructor
  · intro h
    cases h with
    | left h => exact .inl h
    | right h => exact .inr h
  · rintro (h | h)
    · exact .left h
    · exact .right h

theorem takes_group_iff :
    Takes (.group p) t rest gs ↔ ∃ hs, gs = t :: hs ∧ Takes p t rest hs := by
  constructor
  · intro h
    cases h with
    | group h => exact ⟨_, rfl, h⟩
  · rintro ⟨hs, rfl, h⟩
    exact .group h

theorem takes_atEnd_iff : Takes .atEnd t rest gs ↔ t = [] ∧ rest = [] ∧ gs = [] := by
  constructor
  · intro h
    cases h
    exact ⟨rfl, rfl, rfl⟩
  · rintro ⟨rfl, rfl, rfl⟩
    exact .atEnd

/-- A repeated class takes any stretch of its characters. -/
theorem takes_many_one_iff :
    Takes (.many (.one s)) t rest gs ↔ (∀ c ∈ t, s.holds c = true) ∧ gs = [] := by
  constructor
  · intro h
    generalize hp : Pattern.many (.one s) = p at h
    induction h with
    | stop => exact ⟨nofun, rfl⟩
    | again first later ihFirst ihLater =>
      cases hp
      obtain ⟨c, hc, rfl, rfl⟩ := takes_one_iff.mp first
      obtain ⟨hall, rfl⟩ := ihLater rfl
      exact ⟨List.forall_mem_cons.mpr ⟨hc, hall⟩, rfl⟩
    | _ => cases hp
  · rintro ⟨hall, rfl⟩
    induction t with
    | nil => exact .stop
    | cons c t ih =>
      rw [List.forall_mem_cons] at hall
      exact .again (.one hall.1) (ih hall.2)

/-- A class that is taken once or more takes any stretch of its characters but the empty one. -/
theorem takes_plus_one_iff : Takes (plus (.one s)) t rest gs ↔
    t ≠ [] ∧ (∀ c ∈ t, s.holds c = true) ∧ gs = [] := by
  rw [plus, takes_seq_iff]
  constructor
  · rintro ⟨u, v, gs₁, gs₂, rfl, rfl, first, later⟩
    obtain ⟨c, hc, rfl, rfl⟩ := takes_one_iff.mp first
    obtain ⟨hall, rfl⟩ := takes_many_one_iff.mp later
    exact ⟨nofun, List.forall_mem_cons.mpr ⟨hc, hall⟩, rfl⟩
  · rintro ⟨hne, hall, rfl⟩
    obtain ⟨c, t, rfl⟩ := List.exists_cons_of_ne_nil hne
    rw [List.forall_mem_cons] at hall
    exact ⟨[c], t, [], [], rfl, rfl, .one hall.1, takes_many_one_iff.mpr ⟨hall.2, rfl⟩⟩

end Pattern

end LiveMarkup
