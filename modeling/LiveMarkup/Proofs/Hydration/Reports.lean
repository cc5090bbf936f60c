import LiveMarkup.Proofs.Hydration.Idempotence
import LiveMarkup.Renderer

/-!
# Where the errors of a page come from

A page fails for its own template, for the depth of its elements, or because an element of the
registry comes to an error when it is rendered (`Registry.Reports`). No other error arises on the
way (`Page.reports_of_render`).
-/

namespace LiveMarkup

/-- Some element of the registry can come to an error when it is rendered. -/
def Registry.Reports {H : Type} (config : Config) (registry : Registry H) (e : ResolveError) :
    Prop :=
  ∃ element ∈ registry.elements, ∃ attrs host, (element.markup config attrs host).1 = .error e

namespace Hydration

variable {H : Type} {config : Config} {registry : Registry H} {e : ResolveError}

theorem reports_of_enter {head : TagHead} {children : List Node} {depth : Nat} {h : Hydration H}
    (running : h.error = none)
    (failed : (enter config registry head children depth h).2.error = some (.resolve e)) :
    registry.Reports config e := by
  rw [enter] at failed
  cases found : registry.forTag? head with
  | none => simp [found, running] at failed
  | some element =>
    by_cases reached : config.maxDepth ≤ depth
    · simp [found, reached] at failed
    · cases renders : (element.markup config (element.coerceAttrs head.attributes).1 h.host).1 with
      | error e' =>
        have same : e' = e := by simpa [found, reached, expand, renders] using failed
        exact ⟨element, Registry.mem_of_forTag? found, _, _, same ▸ renders⟩
      | ok markup => simp [found, reached, expand, renders, running] at failed

mutual

/-- What keeps a node from being hydrated, but for the depth, comes from one of the elements. -/
theorem reports_of_hydrate (depth : Nat) (n : Node) {h : Hydration H} (running : h.error = none)
    (failed : (hydrate config registry depth n h).2.error = some (.resolve e)) :
    registry.Reports config e := by
  cases n with
  | tag head children =>
    rw [hydrate_tag] at failed
    cases entered : enter config registry head children depth h with
    | mk found h' =>
      have entry := entry_enter config registry head children depth h
      rw [entered] at entry failed
      cases entry with
      | plain missing => exact reports_of_hydrateAll depth children running failed
      | limit => cases failed
      | failed => exact reports_of_enter running (by rw [entered]; exact failed)
      | rendered found room renders =>
        refine reports_of_hydrateAll (depth + 1) _ ?_ failed
        exact running
  | _ =>
    rw [hydrate_of_leaf (by simp), running] at failed
    cases failed
termination_by (config.maxDepth - depth, sizeOf n)

theorem reports_of_hydrateAll (depth : Nat) (nodes : List Node) {h : Hydration H}
    (running : h.error = none)
    (failed : (hydrateAll config registry depth nodes h).2.error = some (.resolve e)) :
    registry.Reports config e := by
  cases nodes with
  | nil =>
    rw [hydrateAll_nil, running] at failed
    cases failed
  | cons n ns =>
    rw [hydrateAll_cons running] at failed
    cases first : (hydrate config registry depth n h).2.error with
    | none => exact reports_of_hydrateAll depth ns first failed
    | some e' =>
      rw [hydrateAll_of_error (by rw [first]; rfl)] at failed
      exact reports_of_hydrate depth n running failed
termination_by (config.maxDepth - depth, sizeOf nodes)

end

end Hydration

namespace Page

variable {H : Type} {config : Config} {registry : Registry H} {e : ResolveError}

/-- What keeps a page from being rendered, but for the depth of its elements, comes from its
template or from one of the elements. -/
theorem reports_of_render {r : TemplateResult} {host : H}
    (h : (render config registry r host).markup = .error (.resolve e)) :
    r.resolve config = .error e ∨ registry.Reports config e := by
  rw [render] at h
  cases hresolve : r.resolve config with
  | error e' =>
    rw [hresolve] at h
    cases h
    exact .inl rfl
  | ok markup =>
    rw [hresolve] at h
    simp only [ofMarkup] at h
    split at h
    · cases h
    · split at h
      · next hfailed =>
        cases h
        rw [Hydration.run_eq_recursion] at hfailed
        exact .inr (Hydration.reports_of_hydrateAll 0 _ rfl hfailed)
      · cases h

end Page

end LiveMarkup
