import LiveMarkup.Proofs.Escape.RawText
import LiveMarkup.Proofs.Template.Tiles

/-!
# Values in script and style bodies

Strings, numbers, truth values and lists of them are written text by text: `leaves` are the texts,
and each is escaped for itself. Where values stand next to each other in the body of a script or
style element, what is written for them can therefore end the body or begin a comment, and
`resolve_adjacent` tells when: just when one of the marks stands across a seam between two leaves,
be it between two items of a list or between two values.
-/

namespace LiveMarkup

namespace Value

mutual

/-- The value is a string, a number, a truth value or a list of such values. -/
def isPlain : Value → Bool
  | .bool _ | .number _ | .string _ => true
  | .list items => isPlainAll items
  | _ => false

/-- The values are strings, numbers, truth values and lists of such values. -/
def isPlainAll : List Value → Bool
  | [] => true
  | v :: vs => isPlain v && isPlainAll vs

end

mutual

/-- The texts of the strings, numbers and truth values in a value, in order. -/
def leaves : Value → List Text
  | .list items => leavesAll items
  | v => v.primitiveText?.toList

/-- The texts of the strings, numbers and truth values in the items of a list. -/
def leavesAll : List Value → List Text
  | [] => []
  | v :: vs => leaves v ++ leavesAll vs

end

/-! ## Leaves -/

mutual

/-- A plain value is written leaf by leaf. -/
theorem nodeText_of_isPlain (config : Config) (tag : Text) (result : Bool) : (v : Value) →
    v.isPlain = true → nodeText config v result tag =
      .ok (v.leaves.flatMap (Text.escape (.forTextIn tag)))
  | .bool b, _ => by simp [nodeText, leaves, primitiveText?]
  | .number x, _ => by simp [nodeText, leaves, primitiveText?]
  | .string t, _ => by simp [nodeText, leaves, primitiveText?]
  | .list items, h => by
    rw [nodeText, leaves]
    exact nodeTextAll_of_isPlain config tag items h
  | .null, h | .nothing, h | .raw _, h | .json _, h | .template _ _, h | .function, h
  | .directive _, h | .pending _ _ _, h => nomatch h

/-- Plain items are written leaf by leaf. -/
theorem nodeTextAll_of_isPlain (config : Config) (tag : Text) : (vs : List Value) →
    isPlainAll vs = true → nodeTextAll config vs tag =
      .ok ((leavesAll vs).flatMap (Text.escape (.forTextIn tag)))
  | [], _ => by rw [nodeTextAll]; rfl
  | v :: vs, h => by
    rw [isPlainAll, Bool.and_eq_true] at h
    rw [nodeTextAll, nodeText_of_isPlain config tag false v h.1,
      nodeTextAll_of_isPlain config tag vs h.2, leavesAll, List.flatMap_append]
    rfl

end

theorem nodeText_of_raw (config : Config) {tag : Text} {v : Value}
    (hraw : EscapeContext.forTextIn tag = .rawText) (hplain : v.isPlain = true) :
    nodeText config v false tag = .ok (v.leaves.flatMap Text.escapeRawText) := by
  rw [nodeText_of_isPlain config tag false v hplain, hraw]
  rfl

theorem mapM_nodeText_of_raw (config : Config) {run : List (Text × Value)}
    (hraw : ∀ p ∈ run, EscapeContext.forTextIn p.1 = .rawText)
    (hplain : ∀ p ∈ run, p.2.isPlain = true) :
    run.mapM (fun p => nodeText config p.2 false p.1) =
      .ok (run.map fun p => p.2.leaves.flatMap Text.escapeRawText) := by
  induction run with
  | nil => rfl
  | cons p run ih =>
    rw [List.forall_mem_cons] at hraw hplain
    rw [List.mapM_cons, nodeText_of_raw config hraw.1 hplain.1, ih hraw.2 hplain.2]
    rfl

/-! ## Tiles -/

end Value

namespace Template

/-- The tiles of neighbouring texts in the given elements: nothing between two of them, and
`behind` after the last. -/
def adjacent (behind : Text) : List Text → List (Part × Text)
  | [] => []
  | [tag] => [(.text tag, behind)]
  | tag :: tags => (.text tag, []) :: adjacent behind tags

theorem segments_adjacent (behind : Text) (tags : List Text) :
    segments (adjacent behind tags) = tags.length := by
  induction tags using adjacent.induct with
  | case1 => rfl
  | case2 tag => rfl
  | case3 tag tags hne ih =>
    rw [adjacent.eq_3 _ _ _ hne, segments, List.map_cons, List.sum_cons, List.length_cons, ← ih,
      Nat.add_comm]
    rfl

end Template

namespace Value

open Template (segments adjacent)

theorem length_slotsOf (config : Config) (vs : List Value) :
    (slotsOf config vs).length = vs.length := by
  induction vs with
  | nil => rfl
  | cons v vs ih => rw [slotsOf, List.length_cons, List.length_cons, ih]

theorem slotsOf_append (config : Config) (vs ws : List Value) :
    slotsOf config (vs ++ ws) = slotsOf config vs ++ slotsOf config ws := by
  induction vs with
  | nil => rfl
  | cons v vs ih => rw [List.cons_append, slotsOf, slotsOf, ih, List.cons_append]

/-- Tiles with enough values of their own are written apart from those behind them. -/
theorem tilesText_append {config : Config} {total taken : Nat} {tiles rest : List (Part × Text)}
    {slots others : List Slot} (h : slots.length = segments tiles) :
    tilesText config total taken (tiles ++ rest) (slots ++ others) = (do
      let text ← tilesText config total taken tiles slots
      let later ← tilesText config total (taken + slots.length) rest others
      return text ++ later) := by
  induction tiles generalizing taken slots with
  | nil =>
    obtain rfl := List.length_eq_zero_iff.mp h
    simp [tilesText, bind, Except.bind, pure, Except.pure]
    cases tilesText config total taken rest others <;> rfl
  | cons tile tiles ih =>
    obtain ⟨part, behind⟩ := tile
    rw [segments, List.map_cons, List.sum_cons] at h
    have henough : part.segments ≤ slots.length := by simp only [h]; omega
    have hdrop : (slots.drop part.segments).length = segments tiles := by
      rw [List.length_drop, h]
      exact Nat.add_sub_cancel_left ..
    have hcount : taken + part.segments + (slots.drop part.segments).length =
        taken + slots.length := by
      rw [List.length_drop]
      omega
    rw [List.cons_append, tilesText, tilesText, List.length_append, if_neg (by omega),
      if_neg (by omega), List.take_append_of_le_length henough,
      List.drop_append_of_le_length henough, ih hdrop, hcount]
    cases partText config part (slots.take part.segments) with
    | error e => rfl
    | ok text =>
      cases tilesText config total (taken + part.segments) tiles (slots.drop part.segments) with
      | error e => rfl
      | ok body =>
        cases tilesText config total (taken + slots.length) rest others with
        | error e => rfl
        | ok later => simp [bind, Except.bind, pure, Except.pure]

/-- Neighbouring texts are written one after the other, with nothing between them. -/
theorem tilesText_adjacent {config : Config} {total taken : Nat} {behind : Text}
    {run : List (Text × Value)} (hne : run ≠ [])
    (hraw : ∀ p ∈ run, EscapeContext.forTextIn p.1 = .rawText)
    (hplain : ∀ p ∈ run, p.2.isPlain = true) :
    tilesText config total taken (adjacent behind (run.map Prod.fst))
        (slotsOf config (run.map Prod.snd)) =
      .ok ((run.flatMap fun p => p.2.leaves).flatMap Text.escapeRawText ++ behind) := by
  induction run generalizing taken with
  | nil => contradiction
  | cons p run ih =>
    obtain ⟨tag, v⟩ := p
    rw [List.forall_mem_cons] at hraw hplain
    have hpart : partText config (.text tag) [⟨v, fun tag => nodeText config v false tag⟩] =
        .ok (v.leaves.flatMap Text.escapeRawText) := by
      simp [partText, nodeText_of_raw config hraw.1 hplain.1, bind, Except.bind, pure, Except.pure,
        Except.map]
    have hone : ∀ (behind body : Text) (tiles : List (Part × Text)) (others : List Slot),
        tilesText config total (taken + 1) tiles others = .ok body →
        tilesText config total taken ((.text tag, behind) :: tiles)
          (⟨v, fun tag => nodeText config v false tag⟩ :: others) =
            .ok (v.leaves.flatMap Text.escapeRawText ++ (behind ++ body)) := by
      intro behind body tiles others hbody
      simp [tilesText, Part.segments, hpart, hbody, bind, Except.bind, pure, Except.pure]
    cases run with
    | nil => simpa [adjacent, slotsOf] using hone behind [] [] [] rfl
    | cons q run =>
      have hrest := hone [] _ _ _ (ih (List.cons_ne_nil _ _) hraw.2 hplain.2)
      simpa [adjacent, slotsOf] using hrest

/-! ## Seams between values -/

/-- Neighbouring texts in script and style bodies with plain values: what the resolver writes for
them stands in one piece in the whole, and it ends the body or begins a comment exactly when one of
the marks stands across a seam between two leaves. -/
theorem resolve_adjacent (config : Config) {t : Template} {before after : List (Part × Text)}
    {behind : Text} {run : List (Text × Value)} {us ws : List Value}
    (htiles : t.tiles = before ++ (adjacent behind (run.map Prod.fst) ++ after)) (hne : run ≠ [])
    (hraw : ∀ p ∈ run, EscapeContext.forTextIn p.1 = .rawText)
    (hplain : ∀ p ∈ run, p.2.isPlain = true) (hus : us.length = segments before)
    (hws : ws.length = segments after) :
    ∃ texts, run.mapM (fun p => nodeText config p.2 false p.1) = .ok texts ∧
      TemplateResult.resolve config ⟨.ok t, us ++ (run.map Prod.snd ++ ws)⟩ = (do
        let left ← tilesText config t.slotCount 0 before (slotsOf config us)
        let right ← tilesText config t.slotCount (us.length + run.length) after
          (slotsOf config ws)
        return t.head ++ (left ++ (texts.flatten ++ (behind ++ right)))) ∧
      (Text.BreaksRawText texts.flatten ↔ Text.Straddled (run.flatMap fun p => p.2.leaves)) := by
  have hflatten : (run.map fun p => p.2.leaves.flatMap Text.escapeRawText).flatten =
      (run.flatMap fun p => p.2.leaves).flatMap Text.escapeRawText := by
    rw [← List.flatMap_def, List.flatMap_assoc]
  refine ⟨run.map fun p => p.2.leaves.flatMap Text.escapeRawText, ?_, ?_, ?_⟩
  · exact mapM_nodeText_of_raw config hraw hplain
  · have hrun : (slotsOf config (run.map Prod.snd)).length =
        segments (adjacent behind (run.map Prod.fst)) := by
      rw [length_slotsOf, Template.segments_adjacent, List.length_map, List.length_map]
    have hcount : (slotsOf config (us ++ (run.map Prod.snd ++ ws))).length = t.slotCount := by
      rw [Template.slotCount_eq, htiles, Template.segments_append, Template.segments_append, ← hus,
        ← hws, Template.segments_adjacent, length_slotsOf]
      simp only [List.length_append, List.length_map]
    rw [TemplateResult.resolve, templateText_ok, hcount, if_neg fun hne => hne rfl, htiles,
      slotsOf_append, slotsOf_append, tilesText_append (by rw [length_slotsOf, hus]),
      tilesText_append hrun, tilesText_adjacent hne hraw hplain, length_slotsOf, length_slotsOf,
      List.length_map, Nat.zero_add]
    cases tilesText config t.slotCount 0 before (slotsOf config us) with
    | error e => rfl
    | ok left =>
      cases tilesText config t.slotCount (us.length + run.length) after (slotsOf config ws) with
      | error e => rfl
      | ok right =>
        simp [bind, Except.bind, pure, Except.pure, Except.map, hflatten]
  · rw [hflatten]
    exact Text.breaksRawText_flatMap_escapeRawText _

/-- A script whose body is two placeholders. -/
def scriptOfTwo : Template :=
  Tiling.template
    ⟨"<script>".toList, adjacent "</script>".toList ["script".toList, "script".toList]⟩

/-- A start of a comment, cut in two. -/
def cutComment : List (Text × Value) :=
  [("script".toList, .string ['<']), ("script".toList, .string ['!', '-', '-'])]

theorem resolve_adjacent_cutComment : ∃ texts,
    cutComment.mapM (fun p => nodeText {} p.2 false p.1) = .ok texts ∧
      TemplateResult.resolve {} ⟨.ok scriptOfTwo, cutComment.map Prod.snd⟩ =
        .ok ("<script>".toList ++ (texts.flatten ++ "</script>".toList)) ∧
      Text.BreaksRawText texts.flatten := by
  have htiles : scriptOfTwo.tiles =
    [] ++ (adjacent "</script>".toList (cutComment.map Prod.fst) ++ []) := rfl
  have hnone : ([] : List Value).length = segments [] := rfl
  obtain ⟨texts, hnodes, hresolve, hbreaks⟩ := resolve_adjacent {} htiles (List.cons_ne_nil _ _)
    (by decide) (by decide) hnone hnone
  refine ⟨texts, hnodes, hresolve, hbreaks.mpr ?_⟩
  exact ⟨[['<']], [['!', '-', '-']], [], ['<'], ['!', '-', '-'], [], rfl, rfl, rfl, by decide,
    by decide, by decide⟩

/-- A close tag that is cut in two by the items of a list ends the body it stands in. -/
theorem not_unbroken_of_isPlain :
    ¬∀ (config : Config) (fragments : List Text) (t : Template) (tag behind : Text) (v : Value),
      Template.ofFragments fragments = .ok t → (.text tag, behind) ∈ t.tiles →
      EscapeContext.forTextIn tag = .rawText → v.isPlain = true →
      ∀ text, nodeText config v false tag = .ok text → ¬Text.BreaksRawText text := by
  intro h
  have hnode : nodeText {} (.list [.string ['<'], .string "/script>".toList]) false
      "script".toList = .ok "</script>".toList := by
    rw [nodeText_of_raw {} rfl rfl]
    rfl
  have hsplit : Template.ofFragments ["<script>".toList, "</script>".toList] =
      .ok (Tiling.template ⟨"<script>".toList, [(.text "script".toList, "</script>".toList)]⟩) :=
    Template.ofFragments_eq_ok (by decide +kernel)
  refine h {} _ _ _ _ _ hsplit (List.mem_singleton_self _) rfl rfl _ hnode ?_
  exact ⟨"</script".toList, by decide, [], ['>'], rfl⟩

end Value

end LiveMarkup
