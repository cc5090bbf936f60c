import LiveMarkup.Proofs.Hydration.Visits
import LiveMarkup.Proofs.Template.Tiles

/-!
# Hydrating a page again

When what elements render to depends on nothing but their attributes, hydration of a page that has
been hydrated throws away what each registered element holds and puts the same in its place. The
tags and their attributes are the same as before, and so is the number of expanded elements around
each of them, so there is room wherever there was room before.
-/

namespace LiveMarkup

variable {H : Type}

/-- What an element of the registry renders to depends on its attributes, and not on the state of
the host. -/
def Registry.RendersAttributes (config : Config) (registry : Registry H) : Prop :=
  ∀ element ∈ registry.elements, ∀ attrs host other,
    (element.markup config attrs host).1 = (element.markup config attrs other).1

theorem Registry.mem_of_forTag? {registry : Registry H} {head : TagHead} {element : Element H}
    (found : registry.forTag? head = some element) : element ∈ registry.elements := by
  rw [forTag?] at found
  split at found
  · cases found
  · exact List.mem_of_find?_eq_some found

namespace Hydration

variable {config : Config} {registry : Registry H} {depth : Nat} {nodes after : List Node}
  {host host' : H}

/-- The element renders to the same in any state of the host. -/
theorem Renders.anywhere (alike : registry.RendersAttributes config) {head : TagHead}
    {element : Element H} (found : registry.forTag? head = some element) {markup : Text}
    (renders : Renders config element head.attributes host markup host') (other : H) :
    ∃ other', Renders config element head.attributes other markup other' := by
  have same := alike element (Registry.mem_of_forTag? found)
    (element.coerceAttrs head.attributes).1 other host
  rw [Renders] at renders
  rw [renders] at same
  exact ⟨(element.markup config _ other).2, Prod.ext same rfl⟩

/-- A row becomes the same in any state of the host. -/
theorem Hydrates.anywhere (alike : registry.RendersAttributes config)
    (run : Hydrates config registry depth nodes host after host') (other : H) :
    ∃ other', Hydrates config registry depth nodes other after other' := by
  induction run generalizing other with
  | nil => exact ⟨other, .nil⟩
  | leaf leaf rest ih =>
    obtain ⟨other', rest'⟩ := ih other
    exact ⟨other', .leaf leaf rest'⟩
  | plain missing inside rest ihInside ihRest =>
    obtain ⟨other₁, inside'⟩ := ihInside other
    obtain ⟨other₂, rest'⟩ := ihRest other₁
    exact ⟨other₂, .plain missing inside' rest'⟩
  | element found room renders inside rest ihInside ihRest =>
    obtain ⟨other₁, renders'⟩ := renders.anywhere alike found other
    obtain ⟨other₂, inside'⟩ := ihInside other₁
    obtain ⟨other₃, rest'⟩ := ihRest other₂
    exact ⟨other₃, .element found room renders' inside' rest'⟩

/-- A row that has been gone over stays as it is. Inside a registered element the outcome is made
anew from its output, so there it is the first run that is repeated. -/
theorem Hydrates.again (alike : registry.RendersAttributes config)
    (run : Hydrates config registry depth nodes host after host') (other : H) :
    ∃ other', Hydrates config registry depth after other after other' := by
  induction run generalizing other with
  | nil => exact ⟨other, .nil⟩
  | leaf leaf rest ih =>
    obtain ⟨other', rest'⟩ := ih other
    exact ⟨other', .leaf leaf rest'⟩
  | plain missing inside rest ihInside ihRest =>
    obtain ⟨other₁, inside'⟩ := ihInside other
    obtain ⟨other₂, rest'⟩ := ihRest other₁
    exact ⟨other₂, .plain missing inside' rest'⟩
  | element found room renders inside rest _ ihRest =>
    obtain ⟨other₁, renders'⟩ := renders.anywhere alike found other
    obtain ⟨other₂, inside'⟩ := inside.anywhere alike other₁
    obtain ⟨other₃, rest'⟩ := ihRest other₂
    exact ⟨other₃, .element found room renders' inside' rest'⟩

theorem Hydrates.run_eq (hydrates : Hydrates config registry 0 nodes host after host') :
    ∃ notices, run config registry nodes host =
      (after, ⟨(Node.elementsAll registry after).length, notices, host', none⟩) := by
  obtain ⟨notices, eq⟩ := hydrates.eq 0 []
  exact ⟨notices, by rw [run_eq_recursion, eq, Nat.zero_add]⟩

theorem hydrates_of_run (ok : (run config registry nodes host).2.error = none) :
    Hydrates config registry 0 nodes host (run config registry nodes host).1
      (run config registry nodes host).2.host := by
  rw [run_eq_recursion] at ok ⊢
  exact hydrates_of_hydrateAll 0 nodes rfl ok

/-- Hydration without an error is done with one run: when elements render by their attributes alone,
a second run, in whatever state it finds the host, expands as many elements and leaves the forest as
it is. -/
theorem run_idempotent (config : Config) (registry : Registry H)
    (alike : registry.RendersAttributes config) (nodes : List Node) (host : H)
    (ok : (run config registry nodes host).2.error = none) (other : H) :
    (run config registry (run config registry nodes host).1 other).2.error = none ∧
      (run config registry (run config registry nodes host).1 other).2.expansions =
        (run config registry nodes host).2.expansions ∧
      (run config registry (run config registry nodes host).1 other).1 =
        (run config registry nodes host).1 := by
  have first := hydrates_of_run ok
  obtain ⟨_, eq⟩ := first.run_eq
  obtain ⟨_, second⟩ := first.again alike other
  obtain ⟨_, eq'⟩ := second.run_eq
  rw [eq']
  refine ⟨rfl, ?_, rfl⟩
  rw [eq]

/-- An element that counts its renders in the state of the host and holds another one. -/
def framed : Element Nat where
  name := "x-frame".toList
  render := .poke Nat.succ
    (.finish (.ofFragments ["<x-note lang=\"en\"></x-note>".toList] []))

/-- An element that shows its language. -/
def noted : Element Nat where
  name := "x-note".toList
  render := .hook .view fun view =>
    .finish (.ofFragments ["<i>".toList, "</i>".toList]
      [.json ((Keyed.get? view.attrs "lang".toList).getD .null)])

/-- The tag of a frame. -/
def frameHead : TagHead := ⟨"x-frame".toList, [], false⟩

/-- The tag of a note in English. -/
def noteHead : TagHead := ⟨"x-note".toList, [("lang".toList, "en".toList)], false⟩

/-- A note that shows its language. -/
def notedTree : Node := .tag noteHead [.tag ⟨['i'], [], false⟩ [.text "en".toList]]

/-- A frame with its note. -/
def framedTree : Node := .tag frameHead [notedTree]

theorem rendersAttributes_framed (config : Config) :
    Registry.RendersAttributes config ⟨[framed, noted]⟩ := by
  rintro element (_ | ⟨_, _ | ⟨_, ⟨⟩⟩⟩) attrs host other
  · rfl
  · rfl

theorem ofFragments_frame :
    Template.ofFragments ["<x-note lang=\"en\"></x-note>".toList] =
      .ok (Tiling.template ⟨"<x-note lang=\"en\"></x-note>".toList, []⟩) :=
  Template.ofFragments_eq_ok (by decide +kernel)

theorem renders_framed (host : Nat) :
    Renders {} framed frameHead.attributes host "<x-note lang=\"en\"></x-note>".toList
      (host + 1) := by
  have markup : framed.markup {} (framed.coerceAttrs frameHead.attributes).1 host =
      (TemplateResult.resolve {}
        ⟨Template.ofFragments ["<x-note lang=\"en\"></x-note>".toList], []⟩, host + 1) := rfl
  rw [Renders, markup, ofFragments_frame]
  rfl

theorem renders_noted (host : Nat) :
    Renders {} noted noteHead.attributes host "<i>en</i>".toList host := by
  have template : Template.ofFragments ["<i>".toList, "</i>".toList] =
      .ok (Tiling.template ⟨"<i>".toList, [(.text ['i'], "</i>".toList)]⟩) :=
    Template.ofFragments_eq_ok (by decide +kernel)
  have markup : noted.markup {} (noted.coerceAttrs noteHead.attributes).1 host =
      (TemplateResult.resolve {}
        ⟨Template.ofFragments ["<i>".toList, "</i>".toList], [.json (.str "en".toList)]⟩,
        host) := rfl
  rw [Renders, markup, template]
  rfl

theorem parse_frame : Node.parse "<x-note lang=\"en\"></x-note>".toList = [.tag noteHead []] := by
  have tokens : Node.documentTokens "<x-note lang=\"en\"></x-note>".toList =
      [.tag "<x-note lang=\"en\">".toList, .tag "</x-note>".toList] := by decide +kernel
  have opens : Node.roleOf "<x-note lang=\"en\">".toList = .opens noteHead := by decide +kernel
  have closes : Node.roleOf "</x-note>".toList = .closes "x-note".toList := by decide +kernel
  rw [Node.parse, tokens, Node.ofTokens]
  simp only [List.foldl_cons, List.foldl_nil, Node.Builder.take, opens, closes]
  rfl

theorem parse_note :
    Node.parse "<i>en</i>".toList = [.tag ⟨['i'], [], false⟩ [.text "en".toList]] := by
  have tokens : Node.documentTokens "<i>en</i>".toList =
      [.tag "<i>".toList, .text "en".toList, .tag "</i>".toList] := by decide +kernel
  have opens : Node.roleOf "<i>".toList = .opens ⟨['i'], [], false⟩ := by decide +kernel
  have closes : Node.roleOf "</i>".toList = .closes ['i'] := by decide +kernel
  rw [Node.parse, tokens, Node.ofTokens]
  simp only [List.foldl_cons, List.foldl_nil, Node.Builder.take, opens, closes]
  rfl

theorem hydrates_framed (children : List Node) :
    Hydrates {} ⟨[framed, noted]⟩ 0 [.tag frameHead children] 0 [framedTree] 1 := by
  refine .element rfl (by decide) (renders_framed 0) ?_ .nil
  rw [parse_frame]
  refine .element rfl (by decide) (renders_noted 1) ?_ .nil
  rw [parse_note]
  exact .plain rfl (.leaf nofun .nil) .nil

theorem run_idempotent_framed :
    (run {} ⟨[framed, noted]⟩ [.tag frameHead [.text "stale".toList]] 0).2.error = none ∧
      (run {} ⟨[framed, noted]⟩ [framedTree] 7).1 = [framedTree] ∧
      (run {} ⟨[framed, noted]⟩ [framedTree] 7).2.expansions = 2 := by
  obtain ⟨_, eq⟩ := (hydrates_framed [.text "stale".toList]).run_eq
  have ok := congrArg (fun result => result.2.error) eq
  obtain ⟨-, count, same⟩ := run_idempotent {} _ (rendersAttributes_framed {}) _ _ ok 7
  rw [eq] at count same
  exact ⟨ok, same, count⟩

end Hydration

end LiveMarkup
