import LiveMarkup.Proofs.Element.Attributes
import LiveMarkup.Proofs.Markup.AttributeList

/-!
# Reading the attributes of a tag

The attributes of a tag are put under the names that the element declares, and what it declares and
the tag lacks is filled in. If no two declared names are the same but for case, the result is told
by the tag and the declaration alone (`Coerced`): under a declared name is what came last for it in
the tag, in any spelling, and everything else stays the text that it is. Each occurrence of a
declared attribute is checked once, and so is each declared attribute that is missing
(`Declaration.coerced`).
-/

namespace LiveMarkup

/-! ## Lists -/

/-- Where at most one element fits, filtering finds it. -/
theorem filter_eq_toList_find? {α : Type} {fits : α → Bool} {l : List α}
    (one : l.Pairwise fun a b => ¬(fits a = true ∧ fits b = true)) :
    l.filter fits = (l.find? fits).toList := by
  induction l with
  | nil => rfl
  | cons a l ih =>
    obtain ⟨first, one⟩ := List.pairwise_cons.mp one
    by_cases here : fits a = true
    · have none_later : l.filter fits = [] :=
        List.filter_eq_nil_iff.mpr fun b later fitting => first b later ⟨here, fitting⟩
      rw [List.filter_cons_of_pos here, List.find?_cons_of_pos here, none_later]
      rfl
    · rw [List.filter_cons_of_neg here, List.find?_cons_of_neg here, ih one]

namespace Keyed

variable {α β : Type}

/-- What comes last under a key in pairs that are made of others. -/
theorem last?_map (make : α → Text × β) (l : List α) (key : Text) :
    last? (l.map make) key =
      (l.reverse.find? fun a => decide ((make a).1 = key)).map fun a => (make a).2 := by
  rw [last?, ← List.map_reverse, List.find?_map, Option.map_map]
  rfl

theorem has_insert (m : Keyed α) (key other : Text) (value : α) (apart : key ≠ other) :
    has (insert m key value) other = has m other := by
  rw [has, get?_insert, if_neg apart, ← has]

theorem has_of_mem_keys {m : Keyed α} {key : Text} (mem : key ∈ keys m) : has m key = true := by
  induction m with
  | nil => cases mem
  | cons p m ih =>
    rw [has, get?]
    split
    · rfl
    · next other => exact ih ((List.mem_cons.mp mem).resolve_left (Ne.symm other))

end Keyed

/-- The text that comes last under a name, in any case of its letters. -/
def Attributes.lastNamed? (raw : Attributes) (name : Text) : Option Text :=
  (raw.reverse.find? fun a => Text.sameLetters name a.1).map Prod.snd

namespace Declaration

variable {d : Declaration} {raw : List (Text × Text)} {attrs : Keyed Json} {name key : Text}
  {a : Text × AttrType}

/-! ## Declared names -/

/-- No two declared names are the same but for case. -/
def NamesApart (d : Declaration) : Prop := (d.attrTypes.map fun a => Text.lower a.1).Nodup

instance (d : Declaration) : Decidable d.NamesApart :=
  inferInstanceAs (Decidable (List.Nodup _))

/-- The name is declared, in some case of its letters. -/
def Declares (d : Declaration) (name : Text) : Prop :=
  ∃ a ∈ d.attrTypes, Text.sameLetters a.1 name = true

theorem NamesApart.pairwise (apart : d.NamesApart) (name : Text) :
    d.attrTypes.Pairwise fun a b =>
      ¬(Text.sameLetters a.1 name = true ∧ Text.sameLetters b.1 name = true) := by
  refine (List.pairwise_map.mp apart).imp fun differ both => differ ?_
  simp only [Text.sameLetters, beq_iff_eq] at both
  rw [both.1, both.2]

/-- A declaration of the name is the one that is found. -/
theorem NamesApart.attrType?_eq (apart : d.NamesApart) (mem : a ∈ d.attrTypes)
    (same : Text.sameLetters a.1 name = true) : d.attrType? name = some a := by
  have found : a ∈ (d.attrTypes.find? fun a => Text.sameLetters a.1 name).toList := by
    rw [← filter_eq_toList_find? (apart.pairwise name)]
    exact List.mem_filter.mpr ⟨mem, same⟩
  exact Option.mem_toList.mp found

theorem attrType?_eq_none_iff : d.attrType? name = none ↔ ¬d.Declares name := by
  rw [attrType?, List.find?_eq_none, Declares]
  simp

theorem NamesApart.names_nodup (apart : d.NamesApart) : (d.attrTypes.map Prod.fst).Nodup :=
  List.pairwise_map.mpr ((List.pairwise_map.mp apart).imp fun differ same => differ (by rw [same]))

/-! ## Occurrences -/

/-- The name to keep an attribute of a tag under, and its value. -/
def kept (d : Declaration) (p : Text × Text) : Text × Json :=
  ((d.coerceAttr p.1 (some p.2)).1, (d.coerceAttr p.1 (some p.2)).2.1)

theorem coerceEach_eq (attrs : Keyed Json) (raw : List (Text × Text)) :
    d.coerceEach attrs raw =
      ((raw.map d.kept).foldl (fun m p => Keyed.insert m p.1 p.2) attrs,
        raw.flatMap fun p => (d.coerceAttr p.1 (some p.2)).2.2) := by
  induction raw generalizing attrs with
  | nil => rfl
  | cons p raw ih =>
    simp only [coerceEach, ih]
    rfl

theorem kept_of_attrType? {p : Text × Text} (found : d.attrType? p.1 = some a) :
    d.kept p = (a.1, a.2.parse (some p.2)) := by
  rw [kept, coerceAttr, found]

theorem kept_of_not_declares {p : Text × Text} (foreign : ¬d.Declares p.1) :
    d.kept p = (p.1, .str p.2) := by
  rw [kept, coerceAttr, attrType?_eq_none_iff.mpr foreign]
  rfl

/-- An attribute is kept under a declared name or under its own. -/
theorem kept_cases (d : Declaration) (p : Text × Text) :
    (∃ a ∈ d.attrTypes, Text.sameLetters a.1 p.1 = true ∧
        d.kept p = (a.1, a.2.parse (some p.2))) ∨
      (¬d.Declares p.1 ∧ d.kept p = (p.1, .str p.2)) := by
  cases found : d.attrType? p.1 with
  | some a =>
    exact .inl ⟨a, List.mem_of_find?_eq_some found, sameLetters_of_attrType? found,
      kept_of_attrType? found⟩
  | none =>
    have foreign := attrType?_eq_none_iff.mp found
    exact .inr ⟨foreign, kept_of_not_declares foreign⟩

/-- Under a declared name come the attributes whose names are the same but for case. -/
theorem NamesApart.kept_fst_eq_iff (apart : d.NamesApart) (mem : a ∈ d.attrTypes)
    (p : Text × Text) : (d.kept p).1 = a.1 ↔ Text.sameLetters a.1 p.1 = true := by
  constructor
  · intro under
    rcases d.kept_cases p with ⟨b, _, same, kept⟩ | ⟨_, kept⟩
    · rw [kept] at under
      rwa [← under]
    · rw [kept] at under
      rw [← under]
      exact beq_self_eq_true _
  · intro same
    rw [kept_of_attrType? (apart.attrType?_eq mem same)]

theorem NamesApart.last?_kept (apart : d.NamesApart) (mem : a ∈ d.attrTypes)
    (raw : Attributes) :
    Keyed.last? (raw.map d.kept) a.1 =
      (raw.lastNamed? a.1).map fun text => a.2.parse (some text) := by
  rw [Keyed.last?_map, Attributes.lastNamed?, Option.map_map]
  simp only [apart.kept_fst_eq_iff mem, Bool.decide_eq_true]
  refine Option.map_congr fun p found => ?_
  have same := List.find?_some found
  rw [kept_of_attrType? (apart.attrType?_eq mem same)]
  rfl

/-- Under any other name come the attributes of that name. -/
theorem kept_fst_eq_iff_of_not_declares (foreign : ¬d.Declares name) (p : Text × Text) :
    (d.kept p).1 = name ↔ p.1 = name := by
  constructor
  · intro under
    rcases d.kept_cases p with ⟨b, mem, _, kept⟩ | ⟨_, kept⟩
    · rw [kept] at under
      exact absurd ⟨b, mem, by rw [under]; exact beq_self_eq_true _⟩ foreign
    · rwa [kept] at under
  · intro named
    rw [kept_of_not_declares (named ▸ foreign), named]

theorem last?_kept_of_not_declares (foreign : ¬d.Declares name) (raw : Attributes) :
    Keyed.last? (raw.map d.kept) name = (Keyed.last? raw name).map .str := by
  rw [Keyed.last?_map, Keyed.last?, Option.map_map]
  simp only [kept_fst_eq_iff_of_not_declares foreign]
  refine Option.map_congr fun p found => ?_
  have same := List.find?_some found
  have named : p.1 = name := of_decide_eq_true same
  rw [kept_of_not_declares (named ▸ foreign)]
  rfl

/-- What is said about one attribute of a tag. -/
theorem NamesApart.reports_eq (apart : d.NamesApart) (p : Text × Text) :
    (d.coerceAttr p.1 (some p.2)).2.2 =
      (d.attrTypes.filter fun a => Text.sameLetters a.1 p.1).flatMap fun a =>
        a.2.validate (d.context a.1) (a.2.parse (some p.2)) := by
  rw [filter_eq_toList_find? (apart.pairwise p.1), coerceAttr, attrType?]
  cases d.attrTypes.find? fun a => Text.sameLetters a.1 p.1 with
  | none => rfl
  | some a => exact (List.append_nil _).symm

/-! ## Missing attributes -/

section Filling

variable {types : List (Text × AttrType)}

theorem get?_fillEach_of_not_mem (other : key ∉ types.map Prod.fst) :
    Keyed.get? (d.fillEach attrs types).1 key = Keyed.get? attrs key := by
  induction types generalizing attrs with
  | nil => rfl
  | cons a types ih =>
    obtain ⟨apart, other⟩ := not_or.mp (mt List.mem_cons.mpr other)
    rw [fillEach]
    split
    · exact ih other
    · exact (ih other).trans (by rw [Keyed.get?_insert, if_neg (Ne.symm apart)])

theorem get?_fillEach_of_mem (names : (types.map Prod.fst).Nodup) (mem : a ∈ types)
    (missing : Keyed.get? attrs a.1 = none) :
    Keyed.get? (d.fillEach attrs types).1 a.1 = some (a.2.parse none) := by
  induction types generalizing attrs with
  | nil => cases mem
  | cons b types ih =>
    obtain ⟨first, names⟩ := List.nodup_cons.mp names
    rcases List.mem_cons.mp mem with rfl | mem
    · rw [fillEach, Keyed.has, missing]
      exact get?_fillEach (by rw [Keyed.get?_insert, if_pos rfl])
    · have differ : b.1 ≠ a.1 := fun same => first (same ▸ List.mem_map_of_mem mem)
      rw [fillEach]
      split
      · exact ih names mem missing
      · exact ih names mem (by rw [Keyed.get?_insert, if_neg differ, missing])

/-- What is missing is reported in the order in which it is declared. -/
theorem fillEach_snd (names : (types.map Prod.fst).Nodup) :
    (d.fillEach attrs types).2 =
      (types.filter fun a => !Keyed.has attrs a.1).flatMap fun a =>
        a.2.validate (d.context a.1) (a.2.parse none) := by
  induction types generalizing attrs with
  | nil => rfl
  | cons b types ih =>
    obtain ⟨first, names⟩ := List.nodup_cons.mp names
    rw [fillEach]
    split
    · next there => rw [ih names, List.filter_cons_of_neg (by simp [there])]
    · next missing =>
      -- filling one in makes none of the later ones present
      have later : (types.filter fun a => !Keyed.has
            (Keyed.insert attrs b.1 (b.2.parse none)) a.1) =
          types.filter fun a => !Keyed.has attrs a.1 := by
        refine List.filter_congr fun a mem => ?_
        have differ : b.1 ≠ a.1 := fun same => first (same ▸ List.mem_map_of_mem mem)
        rw [Keyed.has_insert _ _ _ _ differ]
      rw [List.filter_cons_of_pos (by simp [missing]), List.flatMap_cons, ← later,
        ← ih names]

theorem nodup_keys_fillEach (keys : (Keyed.keys attrs).Nodup) :
    (Keyed.keys (d.fillEach attrs types).1).Nodup := by
  induction types generalizing attrs with
  | nil => exact keys
  | cons a types ih =>
    rw [fillEach]
    split
    · exact ih keys
    · exact ih (Keyed.nodup_keys_insert keys _ _)

end Filling

/-! ## The whole tag -/

/-- What the attributes of a tag come to. -/
structure Coerced (d : Declaration) (raw : Attributes) (attrs : Keyed Json) : Prop where
  /-- Each name is there once. -/
  once : (Keyed.keys attrs).Nodup
  /-- Under each declared name is what came last for it, in any spelling, or what an absent
  attribute is read as. -/
  declared : ∀ a ∈ d.attrTypes, Keyed.get? attrs a.1 = some (a.2.parse (raw.lastNamed? a.1))
  /-- Everything else stays a text under its own name. -/
  others : ∀ name, ¬d.Declares name → Keyed.get? attrs name = (Keyed.last? raw name).map .str
  /-- Nothing else is there. -/
  only : ∀ key ∈ Keyed.keys attrs,
    key ∈ d.attrTypes.map Prod.fst ∨ key ∈ Keyed.keys raw ∧ ¬d.Declares key

theorem coerceEach_nil (raw : Attributes) :
    (d.coerceEach [] raw).1 = Keyed.ofList (raw.map d.kept) := by
  rw [coerceEach_eq]
  rfl

theorem NamesApart.get?_declared (apart : d.NamesApart) (raw : Attributes)
    (mem : a ∈ d.attrTypes) :
    Keyed.get? (d.coerceAttrs raw).1 a.1 = some (a.2.parse (raw.lastNamed? a.1)) := by
  have before : Keyed.get? (d.coerceEach [] raw).1 a.1 =
      (raw.lastNamed? a.1).map fun text => a.2.parse (some text) := by
    rw [coerceEach_nil, Keyed.get?_ofList, apart.last?_kept mem]
  cases last : raw.lastNamed? a.1 with
  | some text =>
    rw [last] at before
    exact get?_fillEach before
  | none =>
    rw [last] at before
    exact get?_fillEach_of_mem apart.names_nodup mem before

/-- Under a name that is not declared as it is spelled is what the tag has put there. -/
theorem get?_of_not_spelled (raw : Attributes) (other : key ∉ d.attrTypes.map Prod.fst) :
    Keyed.get? (d.coerceAttrs raw).1 key = Keyed.last? (raw.map d.kept) key := by
  have filled : Keyed.get? (d.coerceAttrs raw).1 key =
      Keyed.get? (d.coerceEach [] raw).1 key := get?_fillEach_of_not_mem other
  rw [filled, coerceEach_nil, Keyed.get?_ofList]

theorem not_spelled_of_not_declares (foreign : ¬d.Declares name) :
    name ∉ d.attrTypes.map Prod.fst := by
  intro spelled
  obtain ⟨a, mem, rfl⟩ := List.mem_map.mp spelled
  exact foreign ⟨a, mem, beq_self_eq_true _⟩

theorem spelled_of_kept (raw : Attributes) (mem : key ∈ Keyed.keys (d.coerceAttrs raw).1) :
    key ∈ d.attrTypes.map Prod.fst ∨ key ∈ Keyed.keys raw ∧ ¬d.Declares key := by
  by_contra neither
  obtain ⟨unspelled, unnamed⟩ := not_or.mp neither
  have there : (Keyed.get? (d.coerceAttrs raw).1 key).isSome = true :=
    Keyed.has_of_mem_keys mem
  rw [get?_of_not_spelled raw unspelled, Keyed.last?_map, Option.isSome_map,
    List.find?_isSome] at there
  obtain ⟨p, from_tag, under⟩ := there
  have under : (d.kept p).1 = key := of_decide_eq_true under
  rcases d.kept_cases p with ⟨a, declared, _, kept⟩ | ⟨foreign, kept⟩
  · rw [kept] at under
    exact unspelled (under ▸ List.mem_map_of_mem declared)
  · rw [kept] at under
    subst under
    exact unnamed ⟨List.mem_map_of_mem (List.mem_reverse.mp from_tag), foreign⟩

/-- If no two declared names are the same but for case, a tag comes to what it and the declaration
tell. Each occurrence of a declared attribute is checked, in the order of the tag, and then each
declared attribute that is missing, in the order of the declaration. -/
theorem NamesApart.coerced (apart : d.NamesApart) (raw : Attributes) :
    Coerced d raw (d.coerceAttrs raw).1 ∧
      (d.coerceAttrs raw).2 =
        (raw.flatMap fun p => (d.attrTypes.filter fun a => Text.sameLetters a.1 p.1).flatMap
          fun a => a.2.validate (d.context a.1) (a.2.parse (some p.2))) ++
        (d.attrTypes.filter fun a => (raw.lastNamed? a.1).isNone).flatMap
          fun a => a.2.validate (d.context a.1) (a.2.parse none) := by
  refine ⟨⟨?once, fun a mem => apart.get?_declared raw mem, ?others,
    fun key mem => spelled_of_kept raw mem⟩, ?log⟩
  case once =>
    refine nodup_keys_fillEach ?_
    rw [coerceEach_nil]
    exact Keyed.nodup_keys_ofList _
  case others =>
    intro name foreign
    rw [get?_of_not_spelled raw (not_spelled_of_not_declares foreign),
      last?_kept_of_not_declares foreign]
  case log =>
    have missing : (d.attrTypes.filter fun a => !Keyed.has (d.coerceEach [] raw).1 a.1) =
        d.attrTypes.filter fun a => (raw.lastNamed? a.1).isNone := by
      refine List.filter_congr fun a mem => ?_
      rw [Keyed.has, coerceEach_nil, Keyed.get?_ofList, apart.last?_kept mem, Option.isSome_map,
        Option.not_isSome]
    have occurrences : (d.coerceEach [] raw).2 =
        raw.flatMap fun p => (d.attrTypes.filter fun a => Text.sameLetters a.1 p.1).flatMap
          fun a => a.2.validate (d.context a.1) (a.2.parse (some p.2)) := by
      rw [coerceEach_eq]
      simp only [apart.reports_eq]
    have log : (d.coerceAttrs raw).2 = (d.coerceEach [] raw).2 ++
        (d.fillEach (d.coerceEach [] raw).1 d.attrTypes).2 := rfl
    rw [log, fillEach_snd apart.names_nodup, missing, occurrences]

/-- A type of its own: a text without the spaces around it, which may not be blank. -/
def slug : AttrType where
  name := "slug".toList
  parse raw := .str (Text.trim (raw.getD []))
  validate context value :=
    match value with
    | .str [] => [.other (context ++ " is blank".toList)]
    | _ => []

/-- The options are written twice, empty and never as they are declared; the title is missing, and
the slug is blank. -/
theorem NamesApart.coerced_options :
    let d : Declaration :=
      { name := "x-card".toList
        attrTypes := [("meta".toList, BasicType.attrType ⟨.object, true⟩),
          ("title".toList, BasicType.attrType ⟨.string, true⟩), ("slug".toList, slug)] }
    let raw : Attributes :=
      [("META".toList, " ".toList), ("class".toList, "big".toList), ("Slug".toList, " ".toList),
        ("Meta".toList, [])]
    d.NamesApart ∧ Coerced d raw (d.coerceAttrs raw).1 ∧
      (d.coerceAttrs raw).2 =
        [.required "<x-card> meta".toList, .other "<x-card> slug is blank".toList,
          .required "<x-card> meta".toList, .required "<x-card> title".toList] := by
  intro d raw
  have apart : d.NamesApart := by decide
  obtain ⟨attrs, log⟩ := NamesApart.coerced apart raw
  exact ⟨apart, attrs, log.trans (by rfl)⟩

end Declaration

end LiveMarkup
