import LiveMarkup.Proofs.Hydration.Visits

/-!
# Hydration is complete and bounded

After a hydration without an error every registered element of the forest holds its own output, as
many expansions are counted as there are such elements, and no more of them stand inside one another
than the settings allow. The limit is an error exactly when the walk comes to an element that has no
room left, and the error tells the limit.
-/

namespace LiveMarkup.Hydration

open Node

variable {H : Type} {config : Config} {registry : Registry H}

/-- The elements of a forest, rendered one after the other, each of them holding its output: what it
rendered to with its attributes, up to what stands inside further elements. -/
inductive Rendered (config : Config) (registry : Registry H) :
    List (TagHead × List Node) → H → H → Prop
  | nil {host : H} : Rendered config registry [] host host
  | cons {head : TagHead} {nodes : List Node} {element : Element H} {markup : Text}
    {later : List (TagHead × List Node)} {host host₁ host₂ : H}
    (found : registry.forTag? head = some element)
    (renders : Renders config element head.attributes host markup host₁)
    (holds : bareAll registry nodes = bareAll registry (Node.parse markup))
    (rest : Rendered config registry later host₁ host₂) :
    Rendered config registry ((head, nodes) :: later) host host₂

theorem Rendered.append {first later : List (TagHead × List Node)} {host host₁ host₂ : H}
    (before : Rendered config registry first host host₁)
    (after : Rendered config registry later host₁ host₂) :
    Rendered config registry (first ++ later) host host₂ := by
  induction before with
  | nil => exact after
  | cons found renders holds _ ih => exact .cons found renders holds (ih after)

section Hydrates

variable {depth : Nat} {nodes after : List Node} {host host' : H}

theorem Hydrates.bareAll_eq (run : Hydrates config registry depth nodes host after host') :
    bareAll registry after = bareAll registry nodes := by
  obtain ⟨later, eq⟩ := run.eq 0 []
  have same := bareAll_hydrateAll config registry depth nodes ⟨0, [], host, none⟩
  rw [eq] at same
  exact same

theorem Hydrates.rendered (run : Hydrates config registry depth nodes host after host') :
    Rendered config registry (elementsAll registry after) host host' := by
  induction run with
  | nil => exact .nil
  | leaf leaf rest ih =>
    rw [elementsAll_leaf leaf]
    exact ih
  | plain missing inside rest ihInside ihRest =>
    rw [elementsAll_plain missing]
    exact ihInside.append ihRest
  | element found room renders inside rest ihInside ihRest =>
    rw [elementsAll_element found]
    exact .cons found renders inside.bareAll_eq (ihInside.append ihRest)

theorem Hydrates.nestingAll_le (run : Hydrates config registry depth nodes host after host')
    (within : depth ≤ config.maxDepth) :
    depth + nestingAll registry after ≤ config.maxDepth := by
  induction run with
  | nil => exact within
  | leaf leaf rest ih =>
    rw [nestingAll_leaf leaf]
    exact ih within
  | plain missing inside rest ihInside ihRest =>
    have hInside := ihInside within
    have hRest := ihRest within
    rw [nestingAll_plain missing]
    omega
  | element found room renders inside rest ihInside ihRest =>
    have hInside := ihInside room
    have hRest := ihRest within
    rw [nestingAll_element found]
    omega

end Hydrates

/-- A page that is hydrated without an error has all its registered elements expanded, each once and
with its own output inside, and none of them too deep. Hydration stops at the limit exactly when the
walk comes to an element inside as many expanded ones as are allowed, and it tells how many. -/
theorem run_complete (config : Config) (registry : Registry H) (nodes : List Node) (host : H) :
    ((run config registry nodes host).2.error = none →
      (run config registry nodes host).2.expansions =
          (elementsAll registry (run config registry nodes host).1).length ∧
        Rendered config registry (elementsAll registry (run config registry nodes host).1) host
          (run config registry nodes host).2.host ∧
        nestingAll registry (run config registry nodes host).1 ≤ config.maxDepth) ∧
    ∀ name depth,
      (run config registry nodes host).2.error = some (.hydrationDepth name depth) ↔
        depth = config.maxDepth ∧
          ∃ met, met.name = name ∧ Meets config registry met config.maxDepth 0 nodes host := by
  have same : run config registry nodes host = hydrateAll config registry 0 nodes { host } :=
    walk_eq_resume _ [] rfl
  have running : ({ host } : Hydration H).error = none := rfl
  have outcome := outcome_hydrateAll config registry 0 nodes running
  rw [same]
  refine ⟨fun ok => ?_, fun name depth => ⟨fun full => ?_, ?_⟩⟩
  · cases outcome with
    | done _ hydrates =>
      obtain ⟨later, eq⟩ := hydrates.eq 0 []
      refine ⟨?_, hydrates.rendered, ?_⟩
      · have counted := congrArg (fun result => result.2.expansions) eq
        exact counted.trans (Nat.zero_add _)
      · have bounded := hydrates.nestingAll_le (Nat.zero_le _)
        rwa [Nat.zero_add] at bounded
    | failed error => rw [ok] at error; cases error
    | full error => rw [ok] at error; cases error
  · cases outcome with
    | done ok => rw [ok] at full; cases full
    | failed error => rw [error] at full; cases full
    | full error reached meets =>
      rw [error] at full
      cases full
      obtain rfl := Nat.le_antisymm (meets.le (Nat.zero_le _)) reached
      exact ⟨rfl, _, rfl, meets⟩
  · rintro ⟨rfl, met, rfl, meets⟩
    exact meets.eq (Nat.le_refl _) 0 []

end LiveMarkup.Hydration
