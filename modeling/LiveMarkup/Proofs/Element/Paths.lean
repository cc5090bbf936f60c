import LiveMarkup.Element.Manifest
import LiveMarkup.Proofs.Json.Reading
import LiveMarkup.Proofs.Template.Placeholders
import LiveMarkup.Proofs.Text.Digits

/-!
# Paths into attributes

A placeholder of a manifest names an attribute and goes on with a path. A path leads from value to
value: by the number of an item into an array, by a key into an object (`Json.Leads`). The
placeholder reaches what its path leads to, unless an object is entered on the way under a key that
reads as a number; then it gives null, as where the path leads nowhere (`Manifest.path_reaches`).
-/

namespace LiveMarkup

namespace Text

variable {s t : Text} {c : Char}

/-! ## Numerals -/

/-- The text stands for the number, which is below `2 ^ 64`: its decimal digits, perhaps with zeros
and a plus sign before them. -/
def IsNumeral (t : Text) (n : Nat) : Prop :=
  n < Nat.pow 2 64 ∧ ∃ sign zeros, (sign = [] ∨ sign = ['+']) ∧
    t = sign ++ (List.replicate zeros '0' ++ ofNat n)

/-! ## Steps of a path -/

/-- The text can be a step of a path in a placeholder. -/
def IsStep (t : Text) : Prop := ∀ c ∈ t, c ≠ '.' ∧ c ≠ '{' ∧ c ≠ '}' ∧ isBlank c = false

instance (t : Text) : Decidable t.IsStep :=
  List.decidableBAll (fun c => c ≠ '.' ∧ c ≠ '{' ∧ c ≠ '}' ∧ isBlank c = false) t

theorem trim_eq_self (noBlank : ∀ c ∈ t, isBlank c = false) : trim t = t := by
  have front (s : Text) (noBlank : ∀ c ∈ s, isBlank c = false) : s.dropWhile isBlank = s := by
    cases s with
    | nil => rfl
    | cons c s => rw [List.dropWhile_cons_of_neg (by rw [noBlank c List.mem_cons_self]; decide)]
  have back : ∀ c ∈ t.reverse, isBlank c = false :=
    fun c mem => noBlank c (List.mem_reverse.mp mem)
  rw [trim, front t noBlank, trimEnd, front _ back, List.reverse_reverse]

theorem splitAt_of_not_mem (absent : c ∉ s) : splitAt c s = [s] := by
  induction s with
  | nil => rfl
  | cons d s ih =>
    obtain ⟨differ, absent⟩ := not_or.mp (mt List.mem_cons.mpr absent)
    rw [splitAt, if_neg (Ne.symm differ), ih absent]

theorem splitAt_append (absent : c ∉ s) (t : Text) :
    splitAt c (s ++ c :: t) = s :: splitAt c t := by
  induction s with
  | nil => rw [List.nil_append, splitAt, if_pos rfl]
  | cons d s ih =>
    obtain ⟨differ, absent⟩ := not_or.mp (mt List.mem_cons.mpr absent)
    rw [List.cons_append, splitAt, if_neg (Ne.symm differ), ih absent]

/-- Steps with full stops between them are split into the steps. -/
theorem splitAt_join {step : Text} {steps : List Text}
    (absent : ∀ s ∈ step :: steps, c ∉ s) :
    splitAt c (join [c] (step :: steps)) = step :: steps := by
  induction steps generalizing step with
  | nil => exact splitAt_of_not_mem (absent step List.mem_cons_self)
  | cons next steps ih =>
    obtain ⟨first, absent⟩ := List.forall_mem_cons.mp absent
    rw [join, List.singleton_append, splitAt_append first, ih absent]
    exact List.cons_ne_nil _ _

theorem forall_mem_join {mark : Text} {P : Char → Prop} (marks : ∀ c ∈ mark, P c)
    {steps : List Text} (inside : ∀ s ∈ steps, ∀ c ∈ s, P c) : ∀ c ∈ join mark steps, P c := by
  fun_induction join mark steps with
  | case1 => exact List.forall_mem_nil _
  | case2 t => exact inside t List.mem_cons_self
  | case3 t steps _ ih =>
    obtain ⟨first, others⟩ := List.forall_mem_cons.mp inside
    exact List.forall_mem_append.mpr ⟨first, List.forall_mem_append.mpr ⟨marks, ih others⟩⟩

end Text

/-! ## Where a path leads -/

namespace Json

theorem digits_zeros (zeros n : Nat) :
    ∀ c ∈ List.replicate zeros '0' ++ Text.ofNat n, c.isDigit = true :=
  List.forall_mem_append.mpr ⟨Text.isDigit_zeros zeros, fun _ mem => isDigit_of_mem_ofNat mem⟩

/-- A step names the item at an index just when it is a numeral for it. -/
theorem index?_eq_some_iff {step : Text} {i : Nat} : index? step = some i ↔ step.IsNumeral i := by
  have read (ds : Text) (n : Nat) :
      (if !ds.isEmpty && ds.all Char.isDigit && Text.digitsValue ds < Nat.pow 2 64 then
          some (Text.digitsValue ds) else none) = some n ↔
        n < Nat.pow 2 64 ∧ ∃ zeros, ds = List.replicate zeros '0' ++ Text.ofNat n := by
    constructor
    · intro found
      split at found
      · next fits =>
        simp only [Bool.and_eq_true, Bool.not_eq_true', List.isEmpty_eq_false_iff, List.all_eq_true,
          decide_eq_true_eq] at fits
        cases found
        exact ⟨fits.2, Text.exists_zeros fits.1.1 fits.1.2⟩
      · cases found
    · rintro ⟨small, zeros, rfl⟩
      have digits := digits_zeros zeros n
      have present : List.replicate zeros '0' ++ Text.ofNat n ≠ [] :=
        List.append_ne_nil_of_right_ne_nil _ Nat.toDigits_ne_nil
      rw [Text.digitsValue_zeros, if_pos]
      simp only [Bool.and_eq_true, Bool.not_eq_true', List.isEmpty_eq_false_iff, List.all_eq_true,
        decide_eq_true_eq]
      exact ⟨⟨present, digits⟩, small⟩
  have unsigned (zeros n : Nat) (ds : Text) :
      '+' :: ds ≠ List.replicate zeros '0' ++ Text.ofNat n := by
    intro same
    have digit := digits_zeros zeros n '+' (same ▸ List.mem_cons_self)
    exact absurd digit (by decide)
  unfold index?
  split
  · next ds =>
    rw [read]
    constructor
    · rintro ⟨small, zeros, rfl⟩
      exact ⟨small, ['+'], zeros, .inr rfl, rfl⟩
    · rintro ⟨small, sign, zeros, rfl | rfl, digits⟩
      · exact absurd digits (unsigned zeros i ds)
      · exact ⟨small, zeros, (List.cons.inj digits).2⟩
  · next noSign =>
    rw [read]
    constructor
    · rintro ⟨small, zeros, digits⟩
      exact ⟨small, [], zeros, .inl rfl, digits⟩
    · rintro ⟨small, sign, zeros, rfl | rfl, digits⟩
      · exact ⟨small, zeros, digits⟩
      · exact absurd digits (noSign _)

/-- Where the path leads from a value. A step goes to an item of an array by a numeral for its
index, and to a member of an object by its key; `enters` says which keys are taken. -/
inductive Leads (enters : Text → Prop) : Json → List Text → Json → Prop where
  | here (j : Json) : Leads enters j [] j
  | item {items : List Json} {step : Text} {i : Nat} {k s : Json} {path : List Text}
      (numeral : step.IsNumeral i) (found : items[i]? = some k) (rest : Leads enters k path s) :
      Leads enters (.arr items) (step :: path) s
  | member {fields : List (Text × Json)} {key : Text} {k s : Json} {path : List Text}
      (taken : enters key) (found : Keyed.get? fields key = some k)
      (rest : Leads enters k path s) : Leads enters (.obj fields) (key :: path) s

/-- The text is a numeral for no number. -/
def NoNumeral (key : Text) : Prop := ∀ i, ¬key.IsNumeral i

variable {j s : Json} {path : List Text}

theorem index?_eq_none_iff {step : Text} : index? step = none ↔ NoNumeral step := by
  rw [Option.eq_none_iff_forall_ne_some]
  exact forall_congr' fun i => not_congr index?_eq_some_iff

theorem Leads.mono {enters enters' : Text → Prop} (weaker : ∀ key, enters key → enters' key)
    (leads : Leads enters j path s) : Leads enters' j path s := by
  induction leads with
  | here j => exact .here j
  | item numeral found _ ih => exact .item numeral found ih
  | member taken found _ ih => exact .member (weaker _ taken) found ih

/-- Following a path ends where it leads. -/
theorem Leads.follow_eq (leads : Leads NoNumeral j path s) : follow j path = s := by
  induction leads with
  | here j => rfl
  | @item items step i k s path numeral found _ ih =>
    have next : Json.step (.arr items) step = k := by
      simp [Json.step, index?_eq_some_iff.mpr numeral, item?, found]
    rw [follow, List.foldl_cons, next]
    exact ih
  | @member fields key k s path taken found _ ih =>
    have next : Json.step (.obj fields) key = k := by
      simp [Json.step, index?_eq_none_iff.mpr taken, member?, found]
    rw [follow, List.foldl_cons, next]
    exact ih

theorem follow_null (path : List Text) : follow .null path = .null := by
  induction path with
  | nil => rfl
  | cons key path ih =>
    have next : Json.step .null key = .null := by
      rw [Json.step]
      split
      · rfl
      · rfl
    rw [follow, List.foldl_cons, next]
    exact ih

/-- A step is one that a path takes, or it gives null. -/
theorem step_cases (j : Json) (key : Text) :
    (∀ path s, Leads NoNumeral (step j key) path s → Leads NoNumeral j (key :: path) s) ∨
      step j key = .null := by
  cases number : index? key with
  | some i =>
    rw [step, number]
    cases j with
    | arr items =>
      cases found : items[i]? with
      | some k =>
        refine .inl fun path s rest => .item (index?_eq_some_iff.mp number) found ?_
        simpa [item?, found] using rest
      | none => exact .inr (by simp [item?, found])
    | _ => exact .inr rfl
  | none =>
    rw [step, number]
    cases j with
    | obj fields =>
      cases found : Keyed.get? fields key with
      | some k =>
        refine .inl fun path s rest => .member (index?_eq_none_iff.mp number) found ?_
        simpa [member?, found] using rest
      | none => exact .inr (by simp [member?, found])
    | _ => exact .inr rfl

/-- A path that is followed leads there, or it ends in null. -/
theorem leads_follow (j : Json) (path : List Text) :
    Leads NoNumeral j path (follow j path) ∨ follow j path = .null := by
  induction path generalizing j with
  | nil => exact .inl (.here j)
  | cons key path ih =>
    rw [follow, List.foldl_cons]
    rcases step_cases j key with goes | ends
    · exact (ih (step j key)).imp_left (goes path _)
    · rw [ends]
      exact .inr (follow_null path)

theorem follow_eq_null (nowhere : ∀ s, ¬Leads NoNumeral j path s) : follow j path = .null :=
  (leads_follow j path).resolve_left (nowhere _)

end Json

/-! ## Where a placeholder stands -/

namespace Source

variable {inside rest : Text}

theorem balanced_of_no_braces (noBraces : ∀ c ∈ inside, c ≠ '{' ∧ c ≠ '}') : Balanced inside := by
  induction inside with
  | nil => exact closes_nil.mpr rfl
  | cons c inside ih =>
    obtain ⟨first, others⟩ := List.forall_mem_cons.mp noBraces
    exact (closes_other first.1 first.2).mpr (ih others)

/-- A placeholder behind a text that leaves none open comes after the ones of that text. -/
theorem Proper.ofText_placeholder {s : Source} (proper : s.Proper) (balanced : Balanced inside)
    (rest : Text) :
    ofText (s.text ++ '$' :: '{' :: (inside ++ '}' :: rest)) =
      ⟨s.head, s.holes ++ (inside, (ofText rest).head) :: (ofText rest).holes⟩ := by
  obtain ⟨head, holes⟩ := s
  induction holes generalizing head with
  | nil =>
    have first : ∀ c ∈ ('$' :: '{' :: (inside ++ '}' :: rest)).head?, c = '$' :=
      fun c here => (Option.some.inj here).symm
    rw [text, List.flatMap_nil, List.append_nil,
      ofText_append (proper.fragments head List.mem_cons_self) first, ofText_hole balanced]
    exact congrArg (Source.mk · _) (List.append_nil head)
  | cons hole holes ih =>
    obtain ⟨fragments, inner⟩ := proper
    obtain ⟨before, fragments⟩ := List.forall_mem_cons.mp fragments
    obtain ⟨this, inner⟩ := List.forall_mem_cons.mp inner
    have later := ih hole.2 ⟨fragments, inner⟩
    have split : text ⟨head, hole :: holes⟩ ++ '$' :: '{' :: (inside ++ '}' :: rest) =
        head ++ '$' :: '{' :: (hole.1 ++ '}' ::
          (text ⟨hole.2, holes⟩ ++ '$' :: '{' :: (inside ++ '}' :: rest))) := by
      simp [text]
    have first : ∀ c ∈ ('$' :: '{' :: (hole.1 ++ '}' ::
        (text ⟨hole.2, holes⟩ ++ '$' :: '{' :: (inside ++ '}' :: rest)))).head?, c = '$' :=
      fun c here => (Option.some.inj here).symm
    rw [split, ofText_append before first, ofText_hole this, later, List.append_nil,
      List.cons_append]

end Source

/-! ## Placeholders of a manifest -/

namespace Manifest

variable {H : Type} {entry : Entry} {e : Element H} {before after attr : Text} {keys : List Text}
  {attrs : Keyed Json} {j : Json}

/-- The placeholder for an attribute and a path into it. -/
def placeholder (attr : Text) (keys : List Text) : Text :=
  '$' :: '{' :: (Text.join ['.'] (attr :: keys) ++ ['}'])

/-- The values of an element of a manifest are what its placeholders name. -/
theorem values_of_define (defined : define entry = .ok e) (attrs : Keyed Json) (host : H) :
    (e.render.run (e.renderState attrs host)).1.values =
      (Source.ofText entry.template).expressions.map
        fun t => lookup attrs (Text.splitAt '.' t) := by
  rw [define] at defined
  cases stands : (Source.ofText entry.template).template with
  | error e =>
    rw [stands] at defined
    cases defined
  | ok template =>
    rw [stands] at defined
    cases types : attrTypes entry (sorted entry.attrs) with
    | error e =>
      rw [types] at defined
      cases defined
    | ok types =>
      rw [types] at defined
      cases defined
      exact List.map_map

/-- The placeholder is split off as what it names. -/
theorem expressions_placeholder (closed : (Source.ofText before).unclosed? = none)
    (steps : ∀ t ∈ attr :: keys, t.IsStep) (after : Text) :
    (Source.ofText (before ++ (placeholder attr keys ++ after))).expressions[
        (Source.ofText before).holes.length]? = some (Text.join ['.'] (attr :: keys)) := by
  have inside : ∀ c ∈ Text.join ['.'] (attr :: keys), c ≠ '{' ∧ c ≠ '}' ∧ Text.isBlank c = false :=
    Text.forall_mem_join (List.forall_mem_singleton.mpr (by decide))
      fun t mem c here => (steps t mem c here).2
  have split := (Source.proper_ofText closed).ofText_placeholder
    (Source.balanced_of_no_braces fun c mem => ⟨(inside c mem).1, (inside c mem).2.1⟩) after
  rw [Source.text_ofText] at split
  have shape : placeholder attr keys ++ after =
      '$' :: '{' :: (Text.join ['.'] (attr :: keys) ++ '}' :: after) := by
    simp [placeholder]
  rw [shape, split, Source.expressions, List.getElem?_map,
    List.getElem?_append_right (Nat.le_refl _), Nat.sub_self, List.getElem?_cons_zero, Option.map_some,
    Text.trim_eq_self fun c mem => (inside c mem).2.2]

/-- The value of a placeholder of a manifest, wherever it stands in the template: what its path
leads to, when no object on the way is entered under a key that reads as a number, and null when
there is no such way; in particular when the path leads to nothing at all. -/
theorem path_reaches (defined : define entry = .ok e)
    (closed : (Source.ofText before).unclosed? = none)
    (written : entry.template = before ++ (placeholder attr keys ++ after))
    (steps : ∀ t ∈ attr :: keys, t.IsStep) (there : Keyed.get? attrs attr = some j) (host : H) :
    ∃ v, (e.render.run (e.renderState attrs host)).1.values[(Source.ofText before).holes.length]? =
        some v ∧
      (∀ s, j.Leads Json.NoNumeral keys s → v = .ofJson s) ∧
      ((∀ s, ¬j.Leads Json.NoNumeral keys s) → v = .null) ∧
      ((∀ s, ¬j.Leads (fun _ => True) keys s) → v = .null) := by
  have value : (e.render.run (e.renderState attrs host)).1.values[
      (Source.ofText before).holes.length]? = some (.ofJson (Json.follow j keys)) := by
    have split : Text.splitAt '.' (Text.join ['.'] (attr :: keys)) = attr :: keys :=
      Text.splitAt_join fun t mem here => (steps t mem _ here).1 rfl
    rw [values_of_define defined, written, List.getElem?_map,
      expressions_placeholder closed steps, Option.map_some, split, lookup, there,
      Option.getD_some]
  have nowhere (none : ∀ s, ¬j.Leads Json.NoNumeral keys s) :
      Value.ofJson (Json.follow j keys) = .null := by
    rw [Json.follow_eq_null none]
    rfl
  refine ⟨_, value, fun s leads => ?_, nowhere, fun none => nowhere fun s leads => ?_⟩
  · rw [leads.follow_eq]
  · exact none s (leads.mono fun _ _ => trivial)

/-- The title of the second of two items. -/
theorem path_reaches_title :
    let entry : Entry :=
      ⟨"todo-row".toList, "<li>${items.1.title}</li>".toList,
        [("items".toList, "array".toList)], []⟩
    let items : Json :=
      .arr [.obj [("title".toList, .str ['a'])], .obj [("title".toList, .str ['b'])]]
    ∃ e : Element Unit, define entry = .ok e ∧
      (e.render.run (e.renderState [("items".toList, items)] ())).1.values[0]? =
        some (.ofJson (.str ['b'])) := by
  intro entry items
  have stands : (define (H := Unit) entry).isOk = true := by decide +kernel
  cases defined : define (H := Unit) entry with
  | error e =>
    rw [defined] at stands
    cases stands
  | ok e =>
    refine ⟨e, rfl, ?_⟩
    have closed : (Source.ofText "<li>".toList).unclosed? = none := by decide +kernel
    have written : entry.template = "<li>".toList ++
        (placeholder "items".toList [['1'], "title".toList] ++ "</li>".toList) := by
      decide +kernel
    have there : Keyed.get? [("items".toList, items)] "items".toList = some items := rfl
    obtain ⟨v, value, reached, -, -⟩ :=
      path_reaches defined closed written (by decide) there ()
    have one : Text.IsNumeral ['1'] 1 := ⟨by decide, [], 0, .inl rfl, rfl⟩
    have key : Json.NoNumeral "title".toList := Json.index?_eq_none_iff.mp (by decide +kernel)
    have leads : items.Leads Json.NoNumeral [['1'], "title".toList] (.str ['b']) :=
      .item one rfl (.member key rfl (.here _))
    have first : (Source.ofText "<li>".toList).holes.length = 0 := by decide +kernel
    rw [reached _ leads, first] at value
    exact value

/-- An object is not entered under the key `0`. -/
theorem not_path_reaches :
    ¬∀ (entry : Entry) (e : Element Unit) (before after attr : Text) (keys : List Text)
        (attrs : Keyed Json) (j s : Json), define entry = .ok e →
      (Source.ofText before).unclosed? = none →
      entry.template = before ++ (placeholder attr keys ++ after) →
      (∀ t ∈ attr :: keys, t.IsStep) → Keyed.get? attrs attr = some j →
      j.Leads (fun _ => True) keys s →
        (e.render.run (e.renderState attrs ())).1.values[(Source.ofText before).holes.length]? =
          some (.ofJson s) := by
  intro all
  let entry : Entry :=
    ⟨"x-a".toList, "<p>${m.0}</p>".toList, [("m".toList, "object".toList)], []⟩
  let attrs : Keyed Json := [("m".toList, .obj [(['0'], .str ['x'])])]
  have stands : (define (H := Unit) entry).isOk = true := by decide +kernel
  cases defined : define (H := Unit) entry with
  | error e =>
    rw [defined] at stands
    cases stands
  | ok e =>
    have closed : (Source.ofText "<p>".toList).unclosed? = none := by decide +kernel
    have steps : ∀ t ∈ [['m'], ['0']], Text.IsStep t := by decide
    have written : entry.template = "<p>".toList ++ (placeholder ['m'] [['0']] ++ "</p>".toList) :=
      by decide
    have reached := all entry e "<p>".toList "</p>".toList ['m'] [['0']] attrs
      (.obj [(['0'], .str ['x'])]) (.str ['x']) defined closed written steps rfl
      (.member trivial rfl (.here _))
    have null : lookup attrs (Text.splitAt '.' (Text.join ['.'] [['m'], ['0']])) = .null := by rfl
    rw [values_of_define defined, written, List.getElem?_map, expressions_placeholder closed steps,
      Option.map_some, null] at reached
    cases reached

end Manifest

end LiveMarkup
