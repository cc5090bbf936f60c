import LiveMarkup.Proofs.Hydration.Idempotence
import LiveMarkup.Proofs.Markup.Heads
import LiveMarkup.Proofs.Text.Spans
import LiveMarkup.Renderer

/-!
# Registrations that a page does not use

Hydration asks the registry for the tags that it comes to, and for nothing else. Two registries that
have the same elements for the tags of a page, and for the tags of all that is rendered on the way,
therefore make the same of the page: an element that is registered under another name changes
neither the outcome nor the notices.

With no element registered the markup of a page is passed on unread, and with none expanded it is
passed on as it was. The short ways give what the long one gives: a forest without registered
elements stays as it is, and nothing is counted or reported.
-/

namespace LiveMarkup

variable {H : Type}

namespace Registry

variable {registry : Registry H} {head : TagHead}

/-- Both registries have the same element for each tag of the row. -/
def AgreeOn (registry registry' : Registry H) (nodes : List Node) : Prop :=
  ∀ head ∈ Node.headsAll nodes, registry'.forTag? head = registry.forTag? head

theorem get?_register {tag : Text} {d : Element H} (other : Text.sameLetters tag d.name = false) :
    (registry.register d).2.get? tag = registry.get? tag := by
  have differ : d.name ≠ Text.lower tag := by
    intro same
    rw [Text.sameLetters, same, Text.lower_lower, beq_self_eq_true] at other
    cases other
  rw [register]
  split
  · rfl
  · simp only [get?, List.find?_append, List.find?_cons, List.find?_nil, differ, decide_false,
      Option.or_none]

/-- A void tag has no element, and any other one has the element that it had, if the new name is
another. -/
theorem forTag?_register {d : Element H}
    (other : head.void = false → Text.sameLetters head.name d.name = false) :
    (registry.register d).2.forTag? head = registry.forTag? head := by
  rw [forTag?, forTag?]
  cases void : head.void with
  | true => rfl
  | false => exact get?_register (other void)

theorem forTag?_eq_none_of_size (empty : registry.size = 0) (head : TagHead) :
    registry.forTag? head = none := by
  rw [forTag?, get?, List.eq_nil_of_length_eq_zero empty, List.find?_nil, ite_self]

end Registry

namespace Hydration

variable {config : Config} {registry registry' : Registry H}

/-- Before any error an element is rendered, and the walk goes on into its output. -/
inductive Opens (config : Config) (registry : Registry H) (output : List Node) :
    Nat → List Node → H → Prop
  | here {depth : Nat} {head : TagHead} {element : Element H} {markup : Text}
    {children ns : List Node} {host host₁ : H} (found : registry.forTag? head = some element)
    (room : depth < config.maxDepth)
    (renders : Renders config element head.attributes host markup host₁)
    (parsed : Node.parse markup = output) :
    Opens config registry output depth (.tag head children :: ns) host
  | plain {depth : Nat} {head : TagHead} {children ns : List Node} {host : H}
    (missing : registry.forTag? head = none)
    (inside : Opens config registry output depth children host) :
    Opens config registry output depth (.tag head children :: ns) host
  | element {depth : Nat} {head : TagHead} {element : Element H} {markup : Text}
    {children ns : List Node} {host host₁ : H} (found : registry.forTag? head = some element)
    (room : depth < config.maxDepth)
    (renders : Renders config element head.attributes host markup host₁)
    (inside : Opens config registry output (depth + 1) (Node.parse markup) host₁) :
    Opens config registry output depth (.tag head children :: ns) host
  | later {depth : Nat} {n : Node} {ns before : List Node} {host host₁ : H}
    (first : Hydrates config registry depth [n] host before host₁)
    (rest : Opens config registry output depth ns host₁) :
    Opens config registry output depth (n :: ns) host

theorem enter_congr {head : TagHead} (same : registry'.forTag? head = registry.forTag? head)
    (children : List Node) (depth : Nat) (h : Hydration H) :
    enter config registry' head children depth h = enter config registry head children depth h := by
  rw [enter, enter, same]

/-- The first node of a row, hydrated without an error, is gone over by itself. -/
theorem hydrates_of_hydrate {depth : Nat} {n : Node} {h : Hydration H} (running : h.error = none)
    (ok : (hydrate config registry depth n h).2.error = none) :
    Hydrates config registry depth [n] h.host [(hydrate config registry depth n h).1]
      (hydrate config registry depth n h).2.host := by
  have single : hydrateAll config registry depth [n] h =
      ([(hydrate config registry depth n h).1], (hydrate config registry depth n h).2) := by
    rw [hydrateAll_cons running, hydrateAll_nil]
  have hydrates := hydrates_of_hydrateAll depth [n] running (by rw [single]; exact ok)
  rwa [single] at hydrates

/-- Registries that agree on a row, and on every output that is opened from it, make the same of
it. -/
theorem hydrateAll_congr (depth : Nat) (nodes : List Node) {h : Hydration H}
    (running : h.error = none) (agree : registry.AgreeOn registry' nodes)
    (inside : ∀ output, Opens config registry output depth nodes h.host →
      registry.AgreeOn registry' output) :
    hydrateAll config registry' depth nodes h = hydrateAll config registry depth nodes h := by
  cases nodes with
  | nil => rw [hydrateAll_nil, hydrateAll_nil]
  | cons n ns =>
    have first : hydrate config registry' depth n h = hydrate config registry depth n h := by
      cases n with
      | tag head children =>
        obtain ⟨alike, agreeInside⟩ := Node.forall_headsAll_tag agree
        have entry := entry_enter config registry head children depth h
        rw [hydrate_tag, hydrate_tag, enter_congr alike]
        cases entered : enter config registry head children depth h with
        | mk found h' =>
          rw [entered] at entry
          cases entry with
          | plain missing =>
            have same := hydrateAll_congr depth children running agreeInside
              fun output opens => inside output (.plain missing opens)
            simp only [same]
          | limit => rfl
          | failed => rfl
          | @rendered element notices host markup found room renders =>
            have running' : ({ h with
                notices, host, expansions := h.expansions + 1 } : Hydration H).error = none :=
              running
            have same := hydrateAll_congr (depth + 1) (Node.parse markup) running'
              (inside _ (.here found room renders rfl))
              fun output opens => inside output (.element found room renders opens)
            simp only [same]
      | _ => rw [hydrate_of_leaf (by simp), hydrate_of_leaf (by simp)]
    rw [hydrateAll_cons running, hydrateAll_cons running, first]
    have rest : hydrateAll config registry' depth ns (hydrate config registry depth n h).2 =
        hydrateAll config registry depth ns (hydrate config registry depth n h).2 := by
      cases ended : (hydrate config registry depth n h).2.error with
      | some e =>
        have failed : (hydrate config registry depth n h).2.error.isSome = true := by
          rw [ended]
          rfl
        rw [hydrateAll_of_error failed, hydrateAll_of_error failed]
      | none =>
        exact hydrateAll_congr depth ns ended (Node.forall_headsAll_rest agree)
          fun output opens => inside output (.later (hydrates_of_hydrate running ended) opens)
    rw [rest]
termination_by (config.maxDepth - depth, sizeOf nodes)

/-- A row without registered elements stays as it is. -/
theorem hydrateAll_of_missing (depth : Nat) (nodes : List Node) (h : Hydration H)
    (missing : ∀ head ∈ Node.headsAll nodes, registry.forTag? head = none) :
    hydrateAll config registry depth nodes h = (nodes, h) := by
  cases nodes with
  | nil => exact hydrateAll_nil depth h
  | cons n ns =>
    cases failed : h.error with
    | some e => exact hydrateAll_of_error (by rw [failed]; rfl) depth (n :: ns)
    | none =>
      have first : hydrate config registry depth n h = (n, h) := by
        cases n with
        | tag head children =>
          obtain ⟨plain, missingInside⟩ := Node.forall_headsAll_tag missing
          have same := hydrateAll_of_missing depth children h missingInside
          rw [hydrate_tag, enter_plain plain]
          simp only [same]
        | _ => exact hydrate_of_leaf (by simp) depth h
      have rest := hydrateAll_of_missing depth ns h (Node.forall_headsAll_rest missing)
      rw [hydrateAll_cons failed, first, rest]
termination_by sizeOf nodes

theorem not_opens_of_missing {depth : Nat} {nodes output : List Node} {host : H}
    (missing : ∀ head ∈ Node.headsAll nodes, registry.forTag? head = none) :
    ¬Opens config registry output depth nodes host := by
  intro opens
  induction opens with
  | here found =>
    rw [(Node.forall_headsAll_tag missing).1] at found
    cases found
  | plain _ _ ih => exact ih (Node.forall_headsAll_tag missing).2
  | element found =>
    rw [(Node.forall_headsAll_tag missing).1] at found
    cases found
  | later _ _ ih => exact ih (Node.forall_headsAll_rest missing)

end Hydration

namespace Page

open Hydration

variable {config : Config} {registry : Registry H} {r : TemplateResult} {host : H}

/-- A forest that is read while the page is rendered: the page itself, or the output of an element
on it. -/
inductive Visits (config : Config) (registry : Registry H) (r : TemplateResult) (host : H) :
    List Node → Prop
  | page {markup : Text} (on : config.hydrate = true) (resolved : r.resolve config = .ok markup) :
    Visits config registry r host (Node.parse markup)
  | output {markup : Text} {output : List Node} (on : config.hydrate = true)
    (resolved : r.resolve config = .ok markup)
    (opens : Opens config registry output 0 (Node.parse markup) host) :
    Visits config registry r host output

/-- Markup that is passed on unread because no element is registered is what would come of reading
it. -/
theorem ofMarkup_of_hydrate (on : config.hydrate = true) (registry : Registry H) (markup : Text)
    (host : H) :
    ofMarkup config registry markup host =
      let (nodes, h) := run config registry (Node.parse markup) host
      { markup :=
          match h.error with
          | some e => .error e
          | none => .ok (if h.expansions = 0 then markup else Node.serialize nodes)
        notices := h.notices
        host := h.host } := by
  by_cases empty : registry.size = 0
  · have unchanged : run config registry (Node.parse markup) host =
        (Node.parse markup, { host }) := by
      rw [run_eq_recursion]
      exact hydrateAll_of_missing 0 _ _ fun head _ => registry.forTag?_eq_none_of_size empty head
    rw [unchanged]
    exact if_pos (by simp [empty])
  · exact if_neg (by simp [on, empty])

/-- An element does not change a page on which no tag has its name: if none of the forests read on
the way holds such a tag, rendering gives the same markup or the same error, the same notices and
the same host state as before the element was registered. -/
theorem render_register (config : Config) (registry : Registry H) (d : Element H)
    (r : TemplateResult) (host : H)
    (unused : ∀ forest, Visits config registry r host forest → ∀ head ∈ Node.headsAll forest,
      head.void = false → Text.sameLetters head.name d.name = false) :
    render config (registry.register d).2 r host = render config registry r host := by
  have agree {forest : List Node} (visits : Visits config registry r host forest) :
      registry.AgreeOn (registry.register d).2 forest :=
    fun head mem => Registry.forTag?_register (unused forest visits head mem)
  rw [render, render]
  cases resolved : r.resolve config with
  | error e => rfl
  | ok markup =>
    cases on : config.hydrate with
    | false => simp only [ofMarkup, on, Bool.not_false, Bool.true_or, if_true]
    | true =>
      have same : run config (registry.register d).2 (Node.parse markup) host =
          run config registry (Node.parse markup) host := by
        rw [run_eq_recursion, run_eq_recursion]
        exact hydrateAll_congr 0 _ rfl (agree (.page on resolved))
          fun output opens => agree (.output on resolved opens)
      simp only [ofMarkup_of_hydrate on, same]

/-- A page with a note on it. -/
def notedPage : TemplateResult :=
  ⟨Template.ofFragments ["<x-note lang=\"en\"></x-note>".toList], []⟩

theorem resolve_notedPage :
    notedPage.resolve {} = .ok "<x-note lang=\"en\"></x-note>".toList := by
  rw [notedPage, ofFragments_frame]
  rfl

/-- The only tags that are read are that of the note and that in its output. -/
theorem unused_framed (forest : List Node) (visits : Visits {} ⟨[noted]⟩ notedPage 0 forest) :
    ∀ head ∈ Node.headsAll forest, head.void = false →
      Text.sameLetters head.name framed.name = false := by
  cases visits with
  | page _ resolved =>
    cases resolve_notedPage.symm.trans resolved
    rw [parse_frame]
    decide
  | output _ resolved opens =>
    cases resolve_notedPage.symm.trans resolved
    rw [parse_frame] at opens
    cases opens with
    | here found _ renders parsed =>
      cases found
      cases (renders_noted 0).symm.trans renders
      rw [← parsed, parse_note]
      decide
    | plain missing => cases missing
    | element found _ renders inside =>
      cases found
      cases (renders_noted 0).symm.trans renders
      rw [parse_note] at inside
      exact absurd inside (not_opens_of_missing (by decide))
    | later _ rest => cases rest

theorem render_register_framed :
    (render {} (Registry.register ⟨[noted]⟩ framed).2 notedPage 0).markup =
      .ok "<x-note lang=\"en\"><i>en</i></x-note>".toList := by
  have hydrates : Hydrates {} ⟨[noted]⟩ 0 [.tag noteHead []] 0 [notedTree] 0 := by
    refine .element rfl (by decide) (renders_noted 0) ?_ .nil
    rw [parse_note]
    exact .plain rfl (.leaf nofun .nil) .nil
  obtain ⟨_, eq⟩ := hydrates.run_eq
  rw [render_register {} ⟨[noted]⟩ framed notedPage 0 unused_framed, render, resolve_notedPage]
  show (ofMarkup {} ⟨[noted]⟩ _ 0).markup = _
  rw [ofMarkup_of_hydrate rfl, parse_frame, eq]
  have text : Node.serialize [notedTree] = "<x-note lang=\"en\"><i>en</i></x-note>".toList := by
    decide +kernel
  exact congrArg Except.ok text

end Page

end LiveMarkup
