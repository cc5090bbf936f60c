import LiveMarkup.Proofs.Hydration.Recursion

/-!
# What the walk visits

Hydration said without counters and errors. `Hydrates` holds of a row that is gone over without an
error; `Meets` holds of the tags of registered elements that are come to before any error, each with
the number of expanded elements around it. Both follow the document: an element is rendered for its
tag, and its output is visited in place of the children.

`Hydrates.eq` and `Meets.eq` are what the recursion makes of them, and `outcome_hydrateAll` that it
does nothing else.
-/

namespace LiveMarkup.Hydration

open Node

variable {H : Type} {config : Config} {registry : Registry H}

/-- A row that stands inside `depth` expanded elements is gone over without an error. -/
inductive Hydrates (config : Config) (registry : Registry H) :
    Nat → List Node → H → List Node → H → Prop
  | nil {depth : Nat} {host : H} : Hydrates config registry depth [] host [] host
  | leaf {depth : Nat} {n : Node} {ns ns' : List Node} {host host' : H}
    (leaf : ∀ head children, n ≠ .tag head children)
    (rest : Hydrates config registry depth ns host ns' host') :
    Hydrates config registry depth (n :: ns) host (n :: ns') host'
  | plain {depth : Nat} {head : TagHead} {children children' ns ns' : List Node}
    {host host₁ host₂ : H} (missing : registry.forTag? head = none)
    (inside : Hydrates config registry depth children host children' host₁)
    (rest : Hydrates config registry depth ns host₁ ns' host₂) :
    Hydrates config registry depth (.tag head children :: ns) host
      (.tag head children' :: ns') host₂
  | element {depth : Nat} {head : TagHead} {element : Element H} {markup : Text}
    {children children' ns ns' : List Node} {host host₁ host₂ host₃ : H}
    (found : registry.forTag? head = some element) (room : depth < config.maxDepth)
    (renders : Renders config element head.attributes host markup host₁)
    (inside : Hydrates config registry (depth + 1) (Node.parse markup) host₁ children' host₂)
    (rest : Hydrates config registry depth ns host₂ ns' host₃) :
    Hydrates config registry depth (.tag head children :: ns) host
      (.tag head children' :: ns') host₃

/-- Before any error the tag `met` of a registered element is come to, inside `around` expanded
elements. -/
inductive Meets (config : Config) (registry : Registry H) (met : TagHead) (around : Nat) :
    Nat → List Node → H → Prop
  | here {children ns : List Node} {host : H} (found : (registry.forTag? met).isSome = true) :
    Meets config registry met around around (.tag met children :: ns) host
  | plain {depth : Nat} {head : TagHead} {children ns : List Node} {host : H}
    (missing : registry.forTag? head = none)
    (inside : Meets config registry met around depth children host) :
    Meets config registry met around depth (.tag head children :: ns) host
  | element {depth : Nat} {head : TagHead} {element : Element H} {markup : Text}
    {children ns : List Node} {host host₁ : H} (found : registry.forTag? head = some element)
    (room : depth < config.maxDepth)
    (renders : Renders config element head.attributes host markup host₁)
    (inside : Meets config registry met around (depth + 1) (Node.parse markup) host₁) :
    Meets config registry met around depth (.tag head children :: ns) host
  | later {depth : Nat} {n : Node} {ns before : List Node} {host host₁ : H}
    (first : Hydrates config registry depth [n] host before host₁)
    (rest : Meets config registry met around depth ns host₁) :
    Meets config registry met around depth (n :: ns) host

/-! ## From the relations to the recursion -/

section Enter

variable {head : TagHead} {children : List Node} {depth expansions : Nat} {notices : List Notice}
  {host : H}

theorem enter_plain (missing : registry.forTag? head = none) (h : Hydration H) :
    enter config registry head children depth h = (some (children, depth), h) := by
  rw [enter, missing]

theorem enter_limit {element : Element H} (found : registry.forTag? head = some element)
    (reached : config.maxDepth ≤ depth) (h : Hydration H) :
    enter config registry head children depth h =
      (none, { h with error := some (.hydrationDepth head.name depth) }) := by
  rw [enter, found]
  exact if_pos reached

theorem enter_rendered {element : Element H} {markup : Text} {host' : H}
    (found : registry.forTag? head = some element) (room : depth < config.maxDepth)
    (renders : Renders config element head.attributes host markup host') :
    ∃ later, enter config registry head children depth ⟨expansions, notices, host, none⟩ =
      (some (Node.parse markup, depth + 1), ⟨expansions + 1, later, host', none⟩) := by
  rw [Renders] at renders
  rw [enter, found]
  simp only [if_neg (Nat.not_le_of_lt room), expand, renders]
  exact ⟨_, rfl⟩

end Enter

/-- A row that can be gone over is hydrated, and as many expansions are counted as there are
registered elements in the outcome. -/
theorem Hydrates.eq {depth : Nat} {nodes after : List Node} {host host' : H}
    (run : Hydrates config registry depth nodes host after host') (expansions : Nat)
    (notices : List Notice) :
    ∃ later, hydrateAll config registry depth nodes ⟨expansions, notices, host, none⟩ =
      (after, ⟨expansions + (elementsAll registry after).length, later, host', none⟩) := by
  induction run generalizing expansions notices with
  | nil => exact ⟨notices, hydrateAll_nil _ _⟩
  | leaf leaf rest ih =>
    obtain ⟨later, eq⟩ := ih expansions notices
    refine ⟨later, ?_⟩
    rw [hydrateAll_cons rfl, hydrate_of_leaf leaf, eq, elementsAll_leaf leaf]
  | plain missing inside rest ihInside ihRest =>
    obtain ⟨notices₁, eqInside⟩ := ihInside expansions notices
    obtain ⟨later, eqRest⟩ := ihRest _ notices₁
    refine ⟨later, ?_⟩
    rw [hydrateAll_cons rfl, hydrate_tag, enter_plain missing]
    simp only
    rw [eqInside, eqRest, elementsAll_plain missing, List.length_append, Nat.add_assoc]
  | element found room renders inside rest ihInside ihRest =>
    obtain ⟨notices₁, entered⟩ := enter_rendered found room renders
    obtain ⟨notices₂, eqInside⟩ := ihInside (expansions + 1) notices₁
    obtain ⟨later, eqRest⟩ := ihRest _ notices₂
    refine ⟨later, ?_⟩
    have count (k m n : Nat) : k + 1 + m + n = k + (m + n + 1) := by omega
    rw [hydrateAll_cons rfl, hydrate_tag, entered]
    simp only
    rw [eqInside, eqRest, elementsAll_element found, List.length_cons, List.length_append, count]

/-- Coming to a registered element with no room left is an error that tells its name and how many
expanded elements stand around it. -/
theorem Meets.eq {met : TagHead} {around depth : Nat} {nodes : List Node} {host : H}
    (meets : Meets config registry met around depth nodes host)
    (reached : config.maxDepth ≤ around) (expansions : Nat) (notices : List Notice) :
    (hydrateAll config registry depth nodes ⟨expansions, notices, host, none⟩).2.error =
      some (.hydrationDepth met.name around) := by
  induction meets generalizing expansions notices with
  | here found =>
    obtain ⟨element, found⟩ := Option.isSome_iff_exists.mp found
    rw [hydrateAll_cons rfl, hydrate_tag, enter_limit found reached]
    simp only
    rw [hydrateAll_of_error rfl]
  | plain missing inside ih =>
    have failed := ih expansions notices
    rw [hydrateAll_cons rfl, hydrate_tag, enter_plain missing]
    simp only
    rw [hydrateAll_of_error (by rw [failed]; rfl), failed]
  | element found room renders inside ih =>
    obtain ⟨notices₁, entered⟩ := enter_rendered found room renders
    have failed := ih (expansions + 1) notices₁
    rw [hydrateAll_cons rfl, hydrate_tag, entered]
    simp only
    rw [hydrateAll_of_error (by rw [failed]; rfl), failed]
  | later first rest ih =>
    obtain ⟨notices₁, eq⟩ := first.eq expansions notices
    rw [hydrateAll_cons rfl, hydrateAll_nil] at eq
    have after := (Prod.mk.inj eq).2
    rw [hydrateAll_cons rfl, after]
    exact ih _ notices₁

/-- Elements are met at the limit at the latest. -/
theorem Meets.le {met : TagHead} {around depth : Nat} {nodes : List Node} {host : H}
    (meets : Meets config registry met around depth nodes host)
    (within : depth ≤ config.maxDepth) : around ≤ config.maxDepth := by
  induction meets with
  | here found => exact within
  | plain missing inside ih => exact ih within
  | element found room renders inside ih => exact ih room
  | later first rest ih => exact ih within

/-! ## From the recursion to the relations -/

theorem Hydrates.cons {depth : Nat} {n : Node} {ns before after : List Node} {host host₁ host₂ : H}
    (first : Hydrates config registry depth [n] host before host₁)
    (rest : Hydrates config registry depth ns host₁ after host₂) :
    Hydrates config registry depth (n :: ns) host (before ++ after) host₂ := by
  cases first with
  | leaf leaf done => cases done; exact .leaf leaf rest
  | plain missing inside done => cases done; exact .plain missing inside rest
  | element found room renders inside done => cases done; exact .element found room renders inside rest

/-- How hydration of a row ends: without an error, with a template that cannot be resolved, or at a
registered element for which there is no room left. -/
inductive Outcome (config : Config) (registry : Registry H) (depth : Nat) (nodes : List Node)
    (host : H) (after : List Node) (h : Hydration H) : Prop
  | done (ok : h.error = none) (hydrates : Hydrates config registry depth nodes host after h.host)
  | failed {e : ResolveError} (error : h.error = some (.resolve e))
  | full {met : TagHead} {around : Nat} (error : h.error = some (.hydrationDepth met.name around))
    (reached : config.maxDepth ≤ around) (meets : Meets config registry met around depth nodes host)

/-- What comes of a row is what comes of its first node or else of those behind it. -/
theorem Outcome.cons {depth : Nat} {n n' : Node} {ns : List Node} {host : H} {h : Hydration H}
    (first : Outcome config registry depth [n] host [n'] h)
    (rest : h.error = none → Outcome config registry depth ns h.host
      (hydrateAll config registry depth ns h).1 (hydrateAll config registry depth ns h).2) :
    Outcome config registry depth (n :: ns) host
      (n' :: (hydrateAll config registry depth ns h).1)
      (hydrateAll config registry depth ns h).2 := by
  cases first with
  | done ok hydrates =>
    cases rest ok with
    | done ok' hydrates' => exact .done ok' (hydrates.cons hydrates')
    | failed error => exact .failed error
    | full error reached meets => exact .full error reached (.later hydrates meets)
  | failed error =>
    rw [hydrateAll_of_error (by rw [error]; rfl)]
    exact .failed error
  | full error reached meets =>
    rw [hydrateAll_of_error (by rw [error]; rfl)]
    refine .full error reached ?_
    cases meets with
    | here found => exact .here found
    | plain missing inside => exact .plain missing inside
    | element found room renders inside => exact .element found room renders inside
    | later _ rest => cases rest

theorem outcome_hydrateAll (config : Config) (registry : Registry H) (depth : Nat)
    (nodes : List Node) {h : Hydration H} (running : h.error = none) :
    Outcome config registry depth nodes h.host (hydrateAll config registry depth nodes h).1
      (hydrateAll config registry depth nodes h).2 := by
  cases nodes with
  | nil =>
    rw [hydrateAll_nil]
    exact .done running .nil
  | cons n ns =>
    have first : Outcome config registry depth [n] h.host [(hydrate config registry depth n h).1]
        (hydrate config registry depth n h).2 := by
      cases n with
      | tag head children =>
        have entry := entry_enter config registry head children depth h
        rw [hydrate_tag]
        cases entered : enter config registry head children depth h with
        | mk found h' =>
          rw [entered] at entry
          cases entry with
          | plain missing =>
            cases outcome_hydrateAll config registry depth children running with
            | done ok hydrates => exact .done ok (.plain missing hydrates .nil)
            | failed error => exact .failed error
            | full error reached meets => exact .full error reached (.plain missing meets)
          | limit found reached => exact .full rfl reached (.here (by rw [found]; rfl))
          | failed found room => exact .failed rfl
          | @rendered element notices host markup found room renders =>
            have running' : ({ h with
                notices, host, expansions := h.expansions + 1 } : Hydration H).error = none :=
              running
            cases outcome_hydrateAll config registry (depth + 1) (Node.parse markup) running' with
            | done ok hydrates => exact .done ok (.element found room renders hydrates .nil)
            | failed error => exact .failed error
            | full error reached meets =>
              exact .full error reached (.element found room renders meets)
      | _ =>
        rw [hydrate_of_leaf (by simp)]
        exact .done running (.leaf (by simp) .nil)
    rw [hydrateAll_cons running]
    exact first.cons fun running' => outcome_hydrateAll config registry depth ns running'
termination_by (config.maxDepth - depth, sizeOf nodes)

theorem hydrates_of_hydrateAll (depth : Nat) (nodes : List Node) {h : Hydration H}
    (running : h.error = none) (ok : (hydrateAll config registry depth nodes h).2.error = none) :
    Hydrates config registry depth nodes h.host (hydrateAll config registry depth nodes h).1
      (hydrateAll config registry depth nodes h).2.host := by
  cases outcome_hydrateAll config registry depth nodes running with
  | done _ hydrates => exact hydrates
  | failed error => rw [ok] at error; cases error
  | full error => rw [ok] at error; cases error

end LiveMarkup.Hydration
