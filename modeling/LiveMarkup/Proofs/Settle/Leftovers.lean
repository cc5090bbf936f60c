import LiveMarkup.Directive
import LiveMarkup.Proofs.Hydration.Reports
import LiveMarkup.Proofs.Settle.Waits
import LiveMarkup.Proofs.Template.Slots

/-!
# What settling leaves pending

Settling follows lists, templates and what comes of pending values, and the resolver follows lists,
templates and what directives give. `Value.Stands` is the way that both follow. So when a settled
page is still kept from being written by a pending value, a directive stands in it that reports one
or gives a value in which one comes up (`Value.Shows`), as `Value.ifDefined` does exactly when it is
given a pending value (`Value.shows_ifDefined_iff`).
`TemplateResult.settled_without_pending` says that there is no other way, for templates and for
whole pages.
-/

namespace LiveMarkup

namespace Value

/-- One value stands in another and is written at a part: through lists and through the templates
whose parts are written. -/
inductive Stands (config : Config) : Part → Value → Part → Value → Prop
  | here {part : Part} {v : Value} : Stands config part v part v
  | item {tag : Text} {items : List Value} {v w : Value} {part : Part} (hv : v ∈ items)
    (h : Stands config (.text tag) v part w) : Stands config (.text tag) (.list items) part w
  | slot {tag : Text} {t : Template} {values : List Value} {k : Nat} {owner part : Part}
    {v w : Value} (howner : t.owners[k]? = some owner)
    (hwritten : owner.isWritten config = true) (hv : values[k]? = some v)
    (h : Stands config owner v part w) :
    Stands config (.text tag) (.template (.ok t) values) part w

/-- A pending value comes up where a value is written at a part: it stands in it, or a directive
that stands in it reports one or gives a value in which one comes up. -/
inductive Shows (config : Config) : Part → Value → Prop
  | pending {part part' : Part} {v : Value} {id : Nat} {label : Option Text}
    {outcome : Except Text Value} (h : Stands config part v part' (.pending id label outcome)) :
    Shows config part v
  | fault {part part' : Part} {v : Value} {apply : Part → Except ResolveError Value}
    (h : Stands config part v part' (.directive apply))
    (hfault : apply part' = .error .pendingValue) : Shows config part v
  | given {part part' : Part} {v w : Value} {apply : Part → Except ResolveError Value}
    (h : Stands config part v part' (.directive apply)) (hgiven : apply part' = .ok w)
    (hplain : ∀ f, w ≠ .directive f) (hw : Shows config part' w) : Shows config part v

variable {config : Config} {part part' : Part} {v w : Value}

theorem waitsAll_eq_nil_iff (vs : List Value) : waitsAll vs = [] ↔ ∀ v ∈ vs, v.waits = [] := by
  induction vs with
  | nil => simp [waitsAll]
  | cons v vs ih => simp [waitsAll, ih]

/-- Where nothing is pending in a value, none of the values that stand in it is. -/
theorem Stands.waits_eq_nil (h : Stands config part v part' w) (hv : v.waits = []) :
    w.waits = [] := by
  induction h with
  | here => exact hv
  | item hmem _ ih =>
    rw [waits, waitsAll_eq_nil_iff] at hv
    exact ih (hv _ hmem)
  | slot _ _ hget _ ih =>
    rw [waits, waitsAll_eq_nil_iff] at hv
    exact ih (hv _ (List.mem_of_getElem? hget))

/-- What shows a pending value in a value in which nothing is pending is a directive. -/
theorem Shows.exists_directive (h : Shows config part v) (hv : v.waits = []) :
    ∃ part' apply, Stands config part v part' (.directive apply) ∧
      Shows config part' (.directive apply) := by
  cases h with
  | @pending _ _ _ id label outcome hstands =>
    have hnone := hstands.waits_eq_nil hv
    cases outcome <;> cases hnone
  | fault hstands hfault => exact ⟨_, _, hstands, .fault .here hfault⟩
  | given hstands hgiven hplain hw => exact ⟨_, _, hstands, .given .here hgiven hplain hw⟩

/-- A pending value that comes up in a value comes up in all that it stands in. -/
theorem Shows.within (h : Shows config part w) {v : Value} {part₀ : Part}
    (hwithin : ∀ part' x, Stands config part w part' x → Stands config part₀ v part' x) :
    Shows config part₀ v := by
  cases h with
  | pending hstands => exact .pending (hwithin _ _ hstands)
  | fault hstands hfault => exact .fault (hwithin _ _ hstands) hfault
  | given hstands hgiven hplain hw => exact .given (hwithin _ _ hstands) hgiven hplain hw

/-! ## Where a pending value is reported -/

theorem exists_of_attributePiece (h : attributePiece part v = .error .pendingValue) :
    ∃ id label outcome, v = .pending id label outcome := by
  cases v with
  | pending id label outcome => exact ⟨id, label, outcome, rfl⟩
  | json j => cases j <;> cases h
  | list items =>
    rw [attributePiece] at h
    cases hjson : toJson? (.list items) with
    | none => rw [hjson] at h; cases h
    | some j => rw [hjson] at h; cases h
  | _ => cases h

/-- Where a directive reports a pending value or gives one, one comes up. -/
theorem shows_of_applied (h : applied part v = .error .pendingValue ∨
    ∃ id label outcome, applied part v = .ok (.pending id label outcome)) :
    Shows config part v := by
  cases v with
  | directive apply =>
    rcases h with hfault | ⟨id, label, outcome, hgiven⟩
    · exact .fault .here hfault
    · exact .given .here hgiven nofun (.pending .here)
  | pending id label outcome => exact .pending .here
  | _ => rcases h with h | ⟨_, _, _, h⟩ <;> cases h

theorem shows_of_pieceAt (h : pieceAt part v = .error .pendingValue) : Shows config part v := by
  rcases cases_of_bind_eq_error h with hfault | ⟨w, hgiven, hpiece⟩
  · exact shows_of_applied (.inl hfault)
  · obtain ⟨id, label, outcome, rfl⟩ := exists_of_attributePiece hpiece
    exact shows_of_applied (.inr ⟨id, label, outcome, hgiven⟩)

theorem shows_of_switchAt (h : switchAt part v = .error .pendingValue) : Shows config part v := by
  rcases cases_of_bind_eq_error h with hfault | ⟨w, hgiven, hswitch⟩
  · exact shows_of_applied (.inl hfault)
  · cases w with
    | pending id label outcome => exact shows_of_applied (.inr ⟨id, label, outcome, hgiven⟩)
    | _ => cases hswitch

theorem exists_of_nodeTextAll_error {tag : Text} {e : ResolveError} {vs : List Value}
    (h : nodeTextAll config vs tag = .error e) :
    ∃ v ∈ vs, nodeText config v false tag = .error e := by
  induction vs with
  | nil => cases h
  | cons v vs ih =>
    rw [nodeTextAll] at h
    cases hv : nodeText config v false tag with
    | error e' =>
      rw [hv] at h
      cases h
      exact ⟨v, List.mem_cons_self, hv⟩
    | ok text =>
      rw [hv] at h
      cases hvs : nodeTextAll config vs tag with
      | error e' =>
        rw [hvs] at h
        cases h
        obtain ⟨w, hw, hfails⟩ := ih hvs
        exact ⟨w, List.mem_cons_of_mem v hw, hfails⟩
      | ok rest =>
        rw [hvs] at h
        cases h

mutual

/-- Where a value in text reports a pending value, one comes up. -/
theorem shows_of_nodeText : (v : Value) → (result : Bool) → (tag : Text) →
    nodeText config v result tag = .error .pendingValue → Shows config (.text tag) v
  | .list items, _, tag, h => by
    rw [nodeText] at h
    obtain ⟨v, hv, hfails⟩ := exists_of_nodeTextAll_error h
    exact (shows_of_mem items v hv tag hfails).within fun _ _ => .item hv
  | .template (.error _) _, _, _, h => by
    rw [nodeText, templateText] at h
    cases h
  | .template (.ok t) values, _, tag, h => by
    rw [nodeText] at h
    rcases exists_fails_of_templateText h with
      hcount | ⟨k, owner, slot, howner, hwritten, hk, hfails⟩
    · cases hcount
    · rw [getElem?_slotsOf, Option.map_eq_some_iff] at hk
      obtain ⟨v, hv, rfl⟩ := hk
      have hshows : Shows config owner v := by
        cases hfails with
        | text hnode => exact shows_of_mem values v (List.mem_of_getElem? hv) _ hnode
        | piece hpiece => exact shows_of_pieceAt hpiece
        | switch hswitch => exact shows_of_switchAt hswitch
      exact hshows.within fun _ _ => .slot howner hwritten hv
  | .directive apply, false, tag, h => by
    rw [nodeText, if_neg Bool.false_ne_true] at h
    rcases shows_of_resultText (apply (.text tag)) tag h with hfault | ⟨w, hgiven, hplain, hw⟩
    · exact .fault .here hfault
    · exact .given .here hgiven hplain hw
  | .directive apply, true, tag, h => by
    rw [nodeText] at h
    cases h
  | .pending _ _ _, _, _, _ => .pending .here
  | .null, _, _, h | .nothing, _, _, h | .bool _, _, _, h | .number _, _, _, h | .string _, _, _, h
  | .raw _, _, _, h | .json _, _, _, h | .function, _, _, h => by
    rw [nodeText] at h
    cases h

/-- Where what a directive gave reports a pending value, it is one or one comes up in it. -/
theorem shows_of_resultText : (x : Except ResolveError Value) → (tag : Text) →
    resultText config x tag = .error .pendingValue →
      x = .error .pendingValue ∨
        ∃ w, x = .ok w ∧ (∀ f, w ≠ .directive f) ∧ Shows config (.text tag) w
  | .error e, tag, h => by
    rw [resultText] at h
    cases h
    exact .inl rfl
  | .ok w, tag, h => by
    rw [resultText] at h
    refine .inr ⟨w, rfl, fun f hw => ?_, shows_of_nodeText w true tag h⟩
    rw [hw, nodeText] at h
    cases h

/-- Where one of some values in text reports a pending value, one comes up in it. -/
theorem shows_of_mem : (vs : List Value) → ∀ v ∈ vs, ∀ tag : Text,
    nodeText config v false tag = .error .pendingValue → Shows config (.text tag) v
  | v :: vs, w, hw, tag, h => by
    rcases List.mem_cons.mp hw with heq | hw
    · rw [heq] at h ⊢
      exact shows_of_nodeText v false tag h
    · exact shows_of_mem vs w hw tag h

end

/-! ## The directives of the library -/

/-- In a directive stands nothing but itself. -/
theorem Stands.eq_of_directive {apply : Part → Except ResolveError Value}
    (h : Stands config part (.directive apply) part' w) : part' = part ∧ w = .directive apply := by
  cases h
  exact ⟨rfl, rfl⟩

/-- A directive that stands in a template stands in one of its values. -/
theorem Stands.exists_slot {tag : Text} {t : Template} {values : List Value}
    {apply : Part → Except ResolveError Value}
    (h : Stands config (.text tag) (.template (.ok t) values) part (.directive apply)) :
    ∃ slot ∈ t.owners.zip values, Stands config slot.1 slot.2 part (.directive apply) := by
  cases h with
  | @slot _ _ _ k owner _ v _ howner _ hv h =>
    have hslot : (t.owners.zip values)[k]? = some (owner, v) :=
      List.getElem?_zip_eq_some.mpr ⟨howner, hv⟩
    exact ⟨_, List.mem_of_getElem? hslot, h⟩

/-- A directive that stands in a list stands in one of its items. -/
theorem Stands.exists_item {tag : Text} {items : List Value}
    {apply : Part → Except ResolveError Value}
    (h : Stands config (.text tag) (.list items) part (.directive apply)) :
    ∃ v ∈ items, Stands config (.text tag) v part (.directive apply) := by
  cases h with
  | item hv h => exact ⟨_, hv, h⟩

/-- A directive shows a pending value when it reports one, or gives a value in which one comes
up. -/
theorem shows_directive_iff {apply : Part → Except ResolveError Value} :
    Shows config part (.directive apply) ↔ apply part = .error .pendingValue ∨
      ∃ w, apply part = .ok w ∧ (∀ f, w ≠ .directive f) ∧ Shows config part w := by
  constructor
  · intro h
    cases h with
    | pending hstands => cases hstands.eq_of_directive.2
    | fault hstands hfault =>
      obtain ⟨rfl, hsame⟩ := hstands.eq_of_directive
      cases hsame
      exact .inl hfault
    | given hstands hgiven hplain hw =>
      obtain ⟨rfl, hsame⟩ := hstands.eq_of_directive
      cases hsame
      exact .inr ⟨_, hgiven, hplain, hw⟩
  · rintro (hfault | ⟨w, hgiven, hplain, hw⟩)
    · exact .fault .here hfault
    · exact .given .here hgiven hplain hw

/-- At an attribute only a pending value itself shows one, and directives. -/
theorem shows_binding_iff {b : Binding} (hplain : ∀ f, v ≠ .directive f) :
    Shows config (.binding b) v ↔ ∃ id label outcome, v = .pending id label outcome := by
  constructor
  · intro h
    cases h with
    | @pending _ _ _ id label outcome hstands =>
      cases hstands
      exact ⟨id, label, outcome, rfl⟩
    | fault hstands =>
      cases hstands
      exact absurd rfl (hplain _)
    | given hstands =>
      cases hstands
      exact absurd rfl (hplain _)
  · rintro ⟨id, label, outcome, rfl⟩
    exact .pending .here

/-- The value that `ifDefined` shows as pending is the one that it is given. -/
theorem shows_ifDefined_iff : Shows config part (ifDefined v) ↔
    (∃ b, part = .binding b) ∧ ∃ id label outcome, v = .pending id label outcome := by
  unfold ifDefined
  rw [shows_directive_iff]
  cases part with
  | text tag =>
    constructor
    · rintro (h | ⟨w, h, -⟩) <;> cases h
    · rintro ⟨⟨b, hb⟩, -⟩
      cases hb
  | binding b =>
    constructor
    · rintro (h | ⟨w, h, hplain, hw⟩)
      · dsimp only at h
        split at h <;> cases h
      · obtain ⟨id, label, outcome, rfl⟩ := (shows_binding_iff hplain).mp hw
        dsimp only at h
        split at h <;> cases h
        exact ⟨⟨b, rfl⟩, id, label, outcome, rfl⟩
    · rintro ⟨-, id, label, outcome, rfl⟩
      exact .inr ⟨_, rfl, nofun, .pending .here⟩

end Value

/-! ## Settled pages -/

namespace TemplateResult

/-- The template with what comes of each pending value in its place. -/
def settled (r : TemplateResult) : TemplateResult := ⟨r.template, r.values.map Value.settled⟩

variable {config : Config}

/-- Settling comes to the settled template, in which nothing is pending, or to a fault of its
own. -/
theorem cases_of_settle (r : TemplateResult) (s : Settling) :
    (∃ s', r.settle s = (.ok r.settled, s') ∧ r.settled.value.waits = []) ∨
      ∃ e s', r.settle s = (.error e, s') ∧ e ≠ .pendingValue := by
  rw [settle, Value.settleAll_eq, Value.settledAll_eq_map]
  cases hfault : (Wait.run s.taken (Value.waitsAll r.values)).2 with
  | some e =>
    refine .inr ⟨e, _, rfl, fun he => ?_⟩
    rw [he] at hfault
    exact Wait.run_ne_pendingValue hfault
  | none =>
    refine .inl ⟨_, rfl, ?_⟩
    rw [settled, value, Value.waits, ← Value.settledAll_eq_map]
    exact Value.waitsAll_settledAll r.values (Wait.allCome_of_run hfault).1.succeeds

/-- When nothing is pending in the values of a template, what reports a pending value is a
directive. -/
theorem exists_directive_of_resolve {r : TemplateResult} (hwaits : r.value.waits = [])
    (h : r.resolve config = .error .pendingValue) : ∃ part apply,
      Value.Stands config (.text []) r.value part (.directive apply) ∧
        Value.Shows config part (.directive apply) := by
  have hshows : Value.Shows config (.text []) r.value :=
    Value.shows_of_nodeText r.value false [] ((nodeText_value r false []).trans h)
  exact hshows.exists_directive hwaits

/-- A settled page is written without pending values when no directive in it reports one or gives a
value in which one comes up; rendering it comes to none either when its elements do not. -/
theorem settled_without_pending (r : TemplateResult)
    (hclear : ∀ part apply, Value.Stands config (.text []) r.settled.value part (.directive apply) →
      ¬Value.Shows config part (.directive apply)) :
    (∀ s r' s', r.settle s = (.ok r', s') → r'.resolve config ≠ .error .pendingValue) ∧
      ∀ {H : Type} (registry : Registry H) (host : H),
        ¬registry.Reports config .pendingValue →
          (Page.renderSettled config registry r host).1.markup ≠
            .error (.resolve .pendingValue) := by
  have hresolve (hwaits : r.settled.value.waits = []) :
      r.settled.resolve config ≠ .error .pendingValue := fun h =>
    have ⟨part, apply, hstands, hshows⟩ := exists_directive_of_resolve hwaits h
    hclear part apply hstands hshows
  constructor
  · intro s r' s' hsettle
    rcases r.cases_of_settle s with ⟨_, hok, hwaits⟩ | ⟨e, _, herror, -⟩
    · cases hok.symm.trans hsettle
      exact hresolve hwaits
    · cases herror.symm.trans hsettle
  · intro H registry host hquiet hpending
    rw [Page.renderSettled] at hpending
    rcases r.cases_of_settle {} with ⟨_, hok, hwaits⟩ | ⟨e, _, herror, hne⟩
    · rw [hok] at hpending
      exact (Page.reports_of_render hpending).elim (hresolve hwaits) hquiet
    · rw [herror] at hpending
      cases hpending
      exact hne rfl

/-- A paragraph with a title that may be null, and a list of what is still to come. -/
def latePage : TemplateResult :=
  .ofFragments ["<p title=".toList, ['>'], "</p>".toList]
    [.ifDefined (.string "news".toList),
      .list [.pending 1 none (.ok (.template
        (.ok (Tiling.template ⟨"<b>".toList, [(.text ['b'], "</b>".toList)]⟩))
        [.pending 2 none (.ok (.string "now".toList))]))]]

theorem template_latePage : latePage.template =
    .ok (Tiling.template ⟨"<p".toList, [(.binding (.single .attribute "title".toList ['p']), ['>']),
      (.text ['p'], "</p>".toList)]⟩) := by
  simp only [latePage, ofFragments]
  exact Template.ofFragments_eq_ok (by decide +kernel)

theorem settled_without_pending_latePage :
    (∀ part apply,
      Value.Stands {} (.text []) latePage.settled.value part (.directive apply) →
        ¬Value.Shows {} part (.directive apply)) ∧
      (latePage.settle {}).1 = .ok latePage.settled ∧
      latePage.settled.resolve {} ≠ .error .pendingValue ∧
      latePage.settled.resolve {} = .ok "<p title=\"news\"><b>now</b></p>".toList ∧
      (Page.renderSettled {} (⟨[]⟩ : Registry Unit) latePage ()).1.markup ≠
        .error (.resolve .pendingValue) := by
  have hclear : ∀ part apply,
      Value.Stands {} (.text []) latePage.settled.value part (.directive apply) →
        ¬Value.Shows {} part (.directive apply) := by
    intro part apply h
    rw [value, settled, template_latePage] at h
    obtain ⟨slot, hslot, h⟩ := h.exists_slot
    rcases List.mem_pair.mp hslot with rfl | rfl
    · have hsame : Value.directive apply = .ifDefined (.string "news".toList) :=
        h.eq_of_directive.2
      rw [hsame]
      intro hshows
      obtain ⟨-, _, _, _, hpending⟩ := Value.shows_ifDefined_iff.mp hshows
      cases hpending
    · obtain ⟨_, hitem, h⟩ := h.exists_item
      cases List.mem_singleton.mp hitem
      obtain ⟨_, hslot, h⟩ := h.exists_slot
      cases List.mem_singleton.mp hslot
      cases h
  have hsettle : (latePage.settle {}).1 = .ok latePage.settled := rfl
  obtain ⟨hresolve, hrender⟩ := settled_without_pending latePage hclear
  refine ⟨hclear, hsettle, hresolve {} _ _ (Prod.ext hsettle rfl), ?_, hrender _ () ?_⟩
  · rw [resolve, settled, template_latePage]
    rfl
  · rintro ⟨element, helement, -⟩
    cases helement

/-- An image whose source is still to come and goes through a directive. -/
def hiddenImage : TemplateResult :=
  .ofFragments ["<img src=".toList, ['>']]
    [.ifDefined (.pending 1 none (.ok (.string "a.png".toList)))]

theorem template_hiddenImage : hiddenImage.template = .ok (Tiling.template ⟨"<img".toList, [
    (.binding (.single .attribute "src".toList "img".toList), ['>'])]⟩) := by
  simp only [hiddenImage, ofFragments]
  exact Template.ofFragments_eq_ok (by decide +kernel)

/-- A pending value that is given to `ifDefined` is still pending when the page is settled. -/
theorem not_settled_without_pending :
    ¬∀ (config : Config) (r r' : TemplateResult) (s s' : Settling),
      r.settle s = (.ok r', s') → r'.resolve config ≠ .error .pendingValue := by
  intro h
  refine h {} hiddenImage hiddenImage {} {} rfl ?_
  rw [resolve, template_hiddenImage]
  rfl

end TemplateResult

end LiveMarkup
