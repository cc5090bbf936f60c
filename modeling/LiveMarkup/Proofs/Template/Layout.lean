import LiveMarkup.Proofs.Escape.Bodies
import LiveMarkup.Proofs.Template.Bindings
import Mathlib.Logic.ExistsUnique

/-!
# The layout of a template

Parts and static texts are laid out over the placeholders: a part stands at the first placeholder
that it takes, and the places up to the next static text are empty in both rows (`LaidOut`). The
scan pushes part by part, so each fact is an induction on how it lays its rows out (`Laid`): behind
the first part comes the layout of the rest, moved by as many places as the part takes.

A part therefore finds its values whenever the number of all values is right: then nothing is left
to count while the parts are written, and `laid_out` says that the template is written as if nothing
were counted (`Value.uncounted`).
-/

namespace LiveMarkup

namespace Template

/-! ## Places -/

/-- How parts and static texts lie over the placeholders. -/
structure LaidOut (t : Template) : Prop where
  length_strings : t.strings.length = t.parts.length + 1
  /-- There is a text before all placeholders. -/
  first : ∃ s, t.strings[0]? = some (some s)
  /-- Behind the first placeholder of a part the others of it are empty in both rows. -/
  absent : ∀ i (p : Part), t.parts[i]? = some (some p) → ∀ j, 0 < j → j < p.segments →
    t.parts[i + j]? = some none ∧ t.strings[i + j]? = some none
  /-- Behind all of them comes a text, and the next part if there is one. -/
  next : ∀ i (p : Part), t.parts[i]? = some (some p) →
    (∃ s, t.strings[i + p.segments]? = some (some s)) ∧ t.parts[i + p.segments]? ≠ some none
  /-- Each placeholder belongs to one part. -/
  owner : ∀ k < t.slotCount, ∃! i, ∃ p : Part,
    t.parts[i]? = some (some p) ∧ i ≤ k ∧ k < i + p.segments
  /-- The values of a binding stand between its literals. -/
  literals : ∀ b, some (.binding b) ∈ t.parts → b.literals.length = Part.segments (.binding b) + 1
  /-- A boolean attribute takes one value. -/
  boolean : ∀ b, some (.binding b) ∈ t.parts → b.kind = .boolean → Part.segments (.binding b) = 1

end Template

/-! ## Rows -/

namespace Laid

variable {α : Type} {x : α} {row : List (Option α)} {behind : List (Option Text)}
  {parts : List (Option Part)} {p q : Part} {i j k skip : Nat}

/-- What is pushed is followed by the empty places. -/
theorem getElem?_of_le (h : j ≤ skip) :
    (some x :: (List.replicate skip none ++ row))[j]? = some (if j = 0 then some x else none) := by
  cases j with
  | zero => rfl
  | succ j =>
    rw [List.getElem?_cons_succ, List.getElem?_append_left (by rw [List.length_replicate]; omega),
      List.getElem?_replicate_of_lt (by omega)]
    rfl

/-- Behind the empty places the row goes on. -/
theorem getElem?_add :
    (some x :: (List.replicate skip none ++ row))[skip + 1 + k]? = row[k]? := by
  rw [Nat.add_right_comm, List.getElem?_cons_succ,
    List.getElem?_append_right (by rw [List.length_replicate]; omega), List.length_replicate,
    Nat.add_sub_cancel_left]

/-- What begins at a place is the first of the row, or stands in the rest. -/
theorem cases_of_getElem? {y : α}
    (h : (some x :: (List.replicate skip none ++ row))[i]? = some (some y)) :
    i = 0 ∧ y = x ∨ ∃ k, i = skip + 1 + k ∧ row[k]? = some (some y) := by
  by_cases hi : i ≤ skip
  · rw [getElem?_of_le hi] at h
    by_cases hzero : i = 0
    · rw [if_pos hzero] at h
      cases h
      exact .inl ⟨hzero, rfl⟩
    · rw [if_neg hzero] at h
      cases h
  · obtain ⟨k, rfl⟩ := Nat.exists_eq_add_of_lt (Nat.lt_of_not_le hi)
    have place : skip + k + 1 = skip + 1 + k := Nat.add_right_comm ..
    rw [place, getElem?_add] at h
    exact .inr ⟨k, place, h⟩

/-- The places of a part behind its first are empty in both rows. -/
theorem absent (laid : Laid behind parts) (head : Text) (h : parts[i]? = some (some q))
    (hpos : 0 < j) (hj : j < q.segments) :
    parts[i + j]? = some none ∧ (some head :: behind)[i + j]? = some none := by
  induction laid generalizing head i with
  | nil => cases h
  | @part behind parts p skip takes text rest ih =>
    rcases cases_of_getElem? h with ⟨rfl, rfl⟩ | ⟨k, rfl, hk⟩
    · have hle : j ≤ skip := by omega
      rw [Nat.zero_add, getElem?_of_le hle, getElem?_of_le hle, if_neg (Nat.ne_of_gt hpos),
        if_neg (Nat.ne_of_gt hpos)]
      exact ⟨rfl, rfl⟩
    · rw [Nat.add_assoc, getElem?_add, getElem?_add]
      exact ih text hk

/-- No row of parts begins with an empty place. -/
theorem getElem?_zero (laid : Laid behind parts) : parts[0]? ≠ some none := by
  cases laid <;> nofun

/-- Behind the places of a part stands a text, and another part unless the rows end. -/
theorem next (laid : Laid behind parts) (head : Text) (h : parts[i]? = some (some q)) :
    (∃ s, (some head :: behind)[i + q.segments]? = some (some s)) ∧
      parts[i + q.segments]? ≠ some none := by
  induction laid generalizing head i with
  | nil => cases h
  | @part behind parts p skip takes text rest ih =>
    rcases cases_of_getElem? h with ⟨rfl, rfl⟩ | ⟨k, rfl, hk⟩
    · have place : 0 + q.segments = skip + 1 + 0 := by omega
      rw [place, getElem?_add, getElem?_add]
      exact ⟨⟨text, rfl⟩, rest.getElem?_zero⟩
    · rw [Nat.add_assoc, getElem?_add, getElem?_add]
      exact ih text hk

theorem exists_owner (laid : Laid behind parts) (h : k < parts.length) :
    ∃ i p, parts[i]? = some (some p) ∧ i ≤ k ∧ k < i + p.segments := by
  induction laid generalizing k with
  | nil => cases h
  | @part behind parts p skip takes text rest ih =>
    by_cases hk : k ≤ skip
    · exact ⟨0, p, rfl, Nat.zero_le k, by omega⟩
    · obtain ⟨k, rfl⟩ := Nat.exists_eq_add_of_lt (Nat.lt_of_not_le hk)
      rw [List.length_cons, List.length_append, List.length_replicate] at h
      obtain ⟨i, q, hq, hle, hlt⟩ := ih (k := k) (by omega)
      exact ⟨skip + 1 + i, q, getElem?_add.trans hq, by omega, by omega⟩

/-- Two parts do not take the same placeholder. -/
theorem le_of_getElem? (laid : Laid behind parts) (hp : parts[i]? = some (some p))
    (hq : parts[j]? = some (some q)) (hlt : j < i + p.segments) : j ≤ i := by
  refine Nat.le_of_not_lt fun hlater => ?_
  obtain ⟨m, rfl⟩ := Nat.exists_eq_add_of_lt hlater
  rw [Nat.add_assoc, (laid.absent [] hp (Nat.succ_pos m) (by omega)).1] at hq
  cases hq

/-- The values of a part are among those that there are places for. -/
theorem add_segments_le (laid : Laid behind parts) (h : parts[i]? = some (some p)) :
    i + p.segments ≤ parts.length := by
  induction laid generalizing i with
  | nil => cases h
  | @part behind parts q skip takes text rest ih =>
    rw [List.length_cons, List.length_append, List.length_replicate]
    rcases cases_of_getElem? h with ⟨rfl, rfl⟩ | ⟨k, rfl, hk⟩
    · omega
    · have := ih hk
      omega

theorem length_eq (laid : Laid behind parts) : behind.length = parts.length := by
  induction laid with
  | nil => rfl
  | part takes text rest ih =>
    simp only [List.length_append, List.length_cons, List.length_replicate, ih]
    omega

end Laid

namespace Tiling

variable {tiles : List (Part × Text)} {behind : Text} {p q : Part} {i k : Nat}

/-- Behind the first part stand those of the other tiles. -/
theorem getElem?_parts_add :
    (parts ((p, behind) :: tiles))[p.segments + k]? = (parts tiles)[k]? := by
  have later : (parts ((p, behind) :: tiles))[p.segments - 1 + 1 + k]? = (parts tiles)[k]? :=
    Laid.getElem?_add
  rwa [Nat.sub_add_cancel p.segments_pos] at later

/-- A part that begins at a place is that of the first tile, or of one behind it. -/
theorem cases_of_getElem?_parts (h : (parts ((p, behind) :: tiles))[i]? = some (some q)) :
    i = 0 ∧ q = p ∨ ∃ k, i = p.segments + k ∧ (parts tiles)[k]? = some (some q) := by
  have := Laid.cases_of_getElem? h
  rwa [Nat.sub_add_cancel p.segments_pos] at this

end Tiling

/-! ## The scan -/

namespace Template

/-- Each boundary between two fragments is a placeholder. -/
theorem length_of_rowsFrom {cx : ScanContext} {index : Nat} {string : Text} {rest : List Text}
    {strings : List (Option Text)} {parts : List (Option Part)}
    (h : rowsFrom cx index string rest = .ok (strings, parts)) : parts.length = rest.length := by
  fun_induction rowsFrom cx index string rest generalizing strings parts
  case case1 =>
    cases h
    rfl
  case case3 ih | case7 ih =>
    obtain ⟨⟨texts, later⟩, scanned, h⟩ := exists_of_bind_eq_ok h
    cases h
    exact congrArg Nat.succ (ih scanned)
  case case6 skip pieces after rest closed b single ih =>
    obtain ⟨⟨texts, later⟩, scanned, h⟩ := exists_of_bind_eq_ok h
    cases h
    obtain ⟨skipped, taken⟩ := length_quoted? closed
    have := ih scanned
    rw [List.length_cons, List.length_append, List.length_replicate]
    omega
  all_goals cases h

theorem slotCount_of_ofFragments {fragments : List Text} {t : Template}
    (ht : ofFragments fragments = .ok t) : t.slotCount = max fragments.length 1 - 1 := by
  cases fragments with
  | nil =>
    cases ht
    rfl
  | cons first rest =>
    simp only [ofFragments] at ht
    split at ht
    · cases ht
    · next scanned =>
      cases ht
      rw [slotCount, length_of_rowsFrom scanned, List.length_cons]
      omega

theorem laidOut_of_ofFragments {fragments : List Text} {t : Template}
    (ht : ofFragments fragments = .ok t) : t.LaidOut := by
  obtain ⟨head, behind, strings, laid⟩ := t.laid
  exact {
    length_strings := by rw [strings, List.length_cons, laid.length_eq]
    first := ⟨head, by rw [strings]; rfl⟩
    absent _ _ h _ := strings ▸ laid.absent head h
    next _ _ h := strings ▸ laid.next head h
    owner k hk := by
      obtain ⟨i, p, hp, hle, hlt⟩ := laid.exists_owner hk
      refine ⟨i, ⟨p, hp, hle, hlt⟩, ?_⟩
      rintro j ⟨q, hq, hle', hlt'⟩
      exact Nat.le_antisymm (laid.le_of_getElem? hp hq (by omega))
        (laid.le_of_getElem? hq hp (by omega))
    literals b _ := by
      have := b.two_le_length
      rw [Part.segments]
      omega
    boolean b hb hkind := by
      obtain ⟨text, hmem⟩ := exists_tile_of_mem_parts hb
      rw [Part.segments, length_literals_of_boolean ht hmem hkind] }

end Template

/-! ## Values for the parts -/

namespace Value

open Template (segments)

variable {config : Config} {tiles : List (Part × Text)} {slots : List Slot}

/-- The markup of tiles, each of which takes its values off the front, however many there are. -/
def uncounted (config : Config) : List (Part × Text) → List Slot → Except ResolveError Text
  | [], _ => .ok []
  | (part, behind) :: tiles, slots => do
    let text ← partText config part (slots.take part.segments)
    let rest ← uncounted config tiles (slots.drop part.segments)
    return text ++ (behind ++ rest)

/-- Where there are enough values no part finds too few. -/
theorem tilesText_eq_uncounted {total taken : Nat} (h : segments tiles ≤ slots.length) :
    tilesText config total taken tiles slots = uncounted config tiles slots := by
  induction tiles generalizing taken slots with
  | nil => rfl
  | cons tile tiles ih =>
    obtain ⟨part, behind⟩ := tile
    rw [Template.segments_cons] at h
    have hrest : segments tiles ≤ (slots.drop part.segments).length := by
      rw [List.length_drop]
      omega
    rw [tilesText, if_neg (by omega), uncounted, ih hrest]

/-- What keeps tiles from becoming text is one of the parts with its own values. -/
theorem exists_part_of_uncounted {e : ResolveError}
    (h : uncounted config tiles slots = .error e) : ∃ i p,
      (Tiling.parts tiles)[i]? = some (some p) ∧
        partText config p ((slots.drop i).take p.segments) = .error e := by
  induction tiles generalizing slots with
  | nil => cases h
  | cons tile tiles ih =>
    obtain ⟨p, behind⟩ := tile
    cases hpart : partText config p (slots.take p.segments) with
    | error e' =>
      rw [uncounted, hpart] at h
      cases h
      exact ⟨0, p, rfl, hpart⟩
    | ok text =>
      cases hrest : uncounted config tiles (slots.drop p.segments) with
      | error e' =>
        rw [uncounted, hpart, hrest] at h
        cases h
        obtain ⟨i, q, hq, htext⟩ := ih hrest
        rw [List.drop_drop] at htext
        exact ⟨p.segments + i, q, Tiling.getElem?_parts_add.trans hq, htext⟩
      | ok rest =>
        rw [uncounted, hpart, hrest] at h
        cases h

end Value

namespace Template

/-- The parts of an accepted template tile its placeholders, of which there is one between each two
fragments. With another number of values the template reports the two numbers; with that number
every part finds the values it takes and the template is written without counting them, so that an
error is one of a part with its own values. -/
theorem laid_out {fragments : List Text} {t : Template} (ht : ofFragments fragments = .ok t) :
    t.parts.length = max fragments.length 1 - 1 ∧ t.LaidOut ∧
      ∀ (config : Config) (slots : List Value.Slot),
        (slots.length ≠ t.slotCount →
          Value.templateText config (.ok t) slots =
            .error (.valueCount t.slotCount slots.length)) ∧
        (slots.length = t.slotCount →
          (∀ i p, t.parts[i]? = some (some p) → i + p.segments ≤ slots.length) ∧
          Value.templateText config (.ok t) slots =
            (Value.uncounted config t.tiles slots).map (t.head ++ ·) ∧
          ∀ e, Value.templateText config (.ok t) slots = .error e → ∃ i p,
            t.parts[i]? = some (some p) ∧
              Value.partText config p ((slots.drop i).take p.segments) = .error e) := by
  refine ⟨slotCount_of_ofFragments ht, laidOut_of_ofFragments ht, fun config slots =>
    ⟨fun hcount => if_pos hcount, fun hcount => ?_⟩⟩
  have htext : Value.templateText config (.ok t) slots =
      (Value.uncounted config t.tiles slots).map (t.head ++ ·) := by
    rw [Value.templateText_ok, if_neg (not_not_intro hcount),
      Value.tilesText_eq_uncounted (hcount ▸ slotCount_eq t ▸ Nat.le_refl _)]
  obtain ⟨head, behind, strings, laid⟩ := t.laid
  refine ⟨fun i p h => hcount ▸ laid.add_segments_le h, htext, fun e he => ?_⟩
  rw [htext] at he
  cases huncounted : Value.uncounted config t.tiles slots with
  | error e' =>
    rw [huncounted] at he
    cases he
    rw [t.rows_tiles.2]
    exact Value.exists_part_of_uncounted huncounted
  | ok text =>
    rw [huncounted] at he
    cases he

/-- A class of two values in a paragraph with a text. -/
def classed : Template := Tiling.template {
  head := "<p".toList
  tiles := [
    (.binding
      { kind := .attribute
        name := "class".toList
        literals := ["a ".toList, [' '], " c".toList]
        tag := "p".toList
        leading := ' ' }, ['>']),
    (.text ['p'], "</p>".toList)] }

theorem laid_out_classed :
    ofFragments ["<p class=\"a ".toList, [' '], " c\">".toList, "</p>".toList] = .ok classed ∧
      classed.parts.length = 3 ∧ classed.LaidOut ∧
      Value.templateText {} (.ok classed) (Value.slotsOf {} [.null, .null]) =
        .error (.valueCount 3 2) ∧
      Value.templateText {} (.ok classed) (Value.slotsOf {} [.null, .null, .null]) =
        (Value.uncounted {} classed.tiles (Value.slotsOf {} [.null, .null, .null])).map
          (classed.head ++ ·) := by
  have ht : ofFragments ["<p class=\"a ".toList, [' '], " c\">".toList, "</p>".toList] =
      .ok classed := ofFragments_eq_ok (by decide +kernel)
  obtain ⟨hlength, hlaid, hcount⟩ := laid_out ht
  exact ⟨ht, hlength, hlaid, (hcount {} _).1 (by decide), ((hcount {} _).2 (by decide)).2.1⟩

end Template

end LiveMarkup
