import LiveMarkup.Hydration.Walk
import LiveMarkup.Proofs.Hydration.Elements

/-!
# The walk and the recursion

The walk over an explicit stack of rows does what the recursion over the forest does, node by node:
the same forest comes out, with the same number of expansions, the same notices in the same order,
the same host state and the same first error. `resume` is what the recursion would still do with the
rows around a place; every turn of the walk leaves it as it is.
-/

namespace LiveMarkup.Hydration

variable {H : Type} {config : Config} {registry : Registry H}

/-! ## Entering a tag -/

/-- The element, rendered for a tag with these attributes, comes to `markup` and leaves the host in
state `after`. -/
def Renders (config : Config) (element : Element H) (attributes : Attributes) (before : H)
    (markup : Text) (after : H) : Prop :=
  element.markup config (element.coerceAttrs attributes).1 before = (.ok markup, after)

/-- What can come of entering a tag. -/
inductive Entry (config : Config) (registry : Registry H) (head : TagHead)
    (children : List Node) (depth : Nat) (h : Hydration H) :
    Option (List Node × Nat) × Hydration H → Prop
  | plain (missing : registry.forTag? head = none) :
    Entry config registry head children depth h (some (children, depth), h)
  | limit {element : Element H} (found : registry.forTag? head = some element)
    (reached : config.maxDepth ≤ depth) :
    Entry config registry head children depth h
      (none, { h with error := some (.hydrationDepth head.name depth) })
  | failed {element : Element H} {notices : List Notice} {host : H} {e : ResolveError}
    (found : registry.forTag? head = some element) (room : depth < config.maxDepth) :
    Entry config registry head children depth h
      (none, { h with notices, host, error := some (.resolve e) })
  | rendered {element : Element H} {notices : List Notice} {host : H} {markup : Text}
    (found : registry.forTag? head = some element) (room : depth < config.maxDepth)
    (renders : Renders config element head.attributes h.host markup host) :
    Entry config registry head children depth h
      (some (Node.parse markup, depth + 1),
        { h with notices, host, expansions := h.expansions + 1 })

theorem entry_enter (config : Config) (registry : Registry H) (head : TagHead)
    (children : List Node) (depth : Nat) (h : Hydration H) :
    Entry config registry head children depth h
      (enter config registry head children depth h) := by
  unfold enter
  cases found : registry.forTag? head with
  | none => exact .plain found
  | some element =>
    by_cases reached : config.maxDepth ≤ depth
    · simp only [if_pos reached]
      exact .limit found reached
    · simp only [if_neg reached, expand]
      have room := Nat.lt_of_not_le reached
      cases renders : element.markup config (element.coerceAttrs head.attributes).1 h.host with
      | mk markup host =>
        cases markup with
        | error e => exact .failed found room
        | ok markup => exact .rendered found room renders

theorem error_of_enter_none {head : TagHead} {children : List Node} {depth : Nat}
    {h h' : Hydration H}
    (entered : enter config registry head children depth h = (none, h')) :
    h'.error.isSome = true := by
  have entry := entry_enter config registry head children depth h
  rw [entered] at entry
  cases entry with
  | limit => rfl
  | failed => rfl

theorem error_of_enter_some {head : TagHead} {children nodes : List Node} {depth inner : Nat}
    {h h' : Hydration H}
    (entered : enter config registry head children depth h = (some (nodes, inner), h')) :
    h'.error = h.error := by
  have entry := entry_enter config registry head children depth h
  rw [entered] at entry
  cases entry with
  | plain => rfl
  | rendered => rfl

/-! ## One level of the recursion -/

theorem hydrateAll_nil (depth : Nat) (h : Hydration H) :
    hydrateAll config registry depth [] h = ([], h) := by
  rw [hydrateAll]

theorem hydrateAll_of_error {h : Hydration H} (failed : h.error.isSome = true) (depth : Nat)
    (nodes : List Node) : hydrateAll config registry depth nodes h = (nodes, h) := by
  cases nodes with
  | nil => exact hydrateAll_nil depth h
  | cons n ns => rw [hydrateAll, if_pos failed]

theorem hydrateAll_cons {h : Hydration H} (running : h.error = none) (depth : Nat) (n : Node)
    (ns : List Node) :
    hydrateAll config registry depth (n :: ns) h =
      ((hydrate config registry depth n h).1 ::
          (hydrateAll config registry depth ns (hydrate config registry depth n h).2).1,
        (hydrateAll config registry depth ns (hydrate config registry depth n h).2).2) := by
  rw [hydrateAll, if_neg (by simp [running])]

theorem hydrate_of_leaf {n : Node} (leaf : ∀ head children, n ≠ .tag head children) (depth : Nat)
    (h : Hydration H) : hydrate config registry depth n h = (n, h) := by
  rw [hydrate]
  intro head children isTag
  exact leaf head children isTag

/-- A tag that is entered keeps its head and holds what the nodes inside it become; a tag that is
not stays as it is. -/
theorem hydrate_tag (head : TagHead) (children : List Node) (depth : Nat) (h : Hydration H) :
    hydrate config registry depth (.tag head children) h =
      match enter config registry head children depth h with
      | (none, h) => (.tag head children, h)
      | (some (nodes, inner), h) =>
        (.tag head (hydrateAll config registry inner nodes h).1,
          (hydrateAll config registry inner nodes h).2) := by
  rw [hydrate, enter]
  cases registry.forTag? head with
  | none => rfl
  | some element =>
    by_cases limit : config.maxDepth ≤ depth
    · simp only [if_pos limit]
    · simp only [if_neg limit]
      cases expand config element head.attributes h with
      | mk found h₁ =>
        cases found with
        | none => rfl
        | some nodes => rfl

/-! ## What stays -/

open Node in
mutual

/-- A node becomes one that differs only in what stands inside registered elements. -/
theorem bare_hydrate (config : Config) (registry : Registry H) (depth : Nat) (n : Node)
    (h : Hydration H) :
    bare registry (hydrate config registry depth n h).1 = bare registry n := by
  cases n with
  | tag head children =>
    have entry := entry_enter config registry head children depth h
    rw [hydrate_tag]
    cases entered : enter config registry head children depth h with
    | mk found h' =>
      rw [entered] at entry
      cases entry with
      | plain missing =>
        have same := bareAll_hydrateAll config registry depth children h
        simp only [bare, missing, same]
      | rendered found => simp only [bare, found, Option.isSome_some, if_true]
      | limit => rfl
      | failed => rfl
  | _ => rw [hydrate_of_leaf (by simp)]

theorem bareAll_hydrateAll (config : Config) (registry : Registry H) (depth : Nat)
    (nodes : List Node) (h : Hydration H) :
    bareAll registry (hydrateAll config registry depth nodes h).1 = bareAll registry nodes := by
  cases nodes with
  | nil => rw [hydrateAll_nil]
  | cons n ns =>
    cases failed : h.error with
    | some e => rw [hydrateAll_of_error (by rw [failed]; rfl)]
    | none =>
      rw [hydrateAll_cons failed, bareAll, bareAll, bare_hydrate config registry depth n h,
        bareAll_hydrateAll config registry depth ns]

end

/-! ## Rows around a place -/

/-- What the recursion does with a hydrated row and all that stands around it. -/
def resume (config : Config) (registry : Registry H) {limit : Nat} (nodes : List Node)
    (h : Hydration H) : Around limit → List Node × Hydration H
  | [] => (nodes, h)
  | (head, r) :: around =>
    let (later, h) := hydrateAll config registry r.depth r.todo h
    resume config registry (r.done.reverse ++ .tag head nodes :: later) h around

/-- After an error the forest is put together as it stands. -/
theorem resume_of_error {limit : Nat} {h : Hydration H} (failed : h.error.isSome = true)
    (nodes : List Node) (around : Around limit) :
    resume config registry nodes h around = (around.rebuild nodes, h) := by
  induction around generalizing nodes with
  | nil => rfl
  | cons a around ih =>
    obtain ⟨head, r⟩ := a
    rw [resume, hydrateAll_of_error failed]
    show resume config registry (r.done.reverse ++ .tag head nodes :: r.todo) h around = _
    rw [ih, Around.rebuild, Row.nodes, Row.push, List.reverse_cons, List.append_assoc]
    rfl

theorem walk_of_enter_none {done todo children : List Node} {head : TagHead} {depth : Nat}
    {le : depth ≤ config.maxDepth} {around : Around config.maxDepth} {h h' : Hydration H}
    (entered : enter config registry head children depth h = (none, h')) :
    walk config registry ⟨done, .tag head children :: todo, depth, le⟩ around h =
      (around.rebuild (done.reverse ++ .tag head children :: todo), h') := by
  rw [walk]
  split
  · next found => rw [entered] at found; cases found; rfl
  · next found => rw [entered] at found; cases found

theorem walk_of_enter_some {done todo children nodes : List Node} {head : TagHead}
    {depth inner : Nat} {le : depth ≤ config.maxDepth} {around : Around config.maxDepth}
    {h h' : Hydration H}
    (entered : enter config registry head children depth h = (some (nodes, inner), h')) :
    walk config registry ⟨done, .tag head children :: todo, depth, le⟩ around h =
      walk config registry ⟨[], nodes, inner, le_of_enter_some entered le⟩
        ((head, ⟨done, todo, depth, le⟩) :: around) h' := by
  rw [walk]
  split
  · next found => rw [entered] at found; cases found
  · next found => rw [entered] at found; cases found; rfl

/-- The walk hydrates what is left of its row and then what stands around it. -/
theorem walk_eq_resume (row : Row config.maxDepth) (around : Around config.maxDepth)
    {h : Hydration H} (running : h.error = none) :
    walk config registry row around h =
      resume config registry
        (row.done.reverse ++ (hydrateAll config registry row.depth row.todo h).1)
        (hydrateAll config registry row.depth row.todo h).2 around := by
  induction row, around, h using walk.induct config registry with
  | case1 h done depth le =>
    rw [walk, hydrateAll_nil, List.append_nil]
    rfl
  | case2 h done depth le head r around ih =>
    simp only [List.unattach_reverse, List.unattach_attach] at ih
    rw [walk, ih running, hydrateAll_nil, List.append_nil, resume, Row.push, List.reverse_cons,
      List.append_assoc]
    rfl
  | case3 around h done head children todo depth le h' entered =>
    have failed := error_of_enter_none entered
    rw [walk_of_enter_none entered, hydrateAll_cons running, hydrate_tag, entered]
    show _ = resume config registry _ (hydrateAll config registry depth todo h').2 around
    rw [hydrateAll_of_error failed, resume_of_error failed]
  | case4 around h done head children todo depth le h' nodes inner entered ih =>
    have running' := (error_of_enter_some entered).trans running
    rw [walk_of_enter_some entered, ih running', hydrateAll_cons running, hydrate_tag, entered]
    rfl
  | case5 around h done n todo depth le leaf ih =>
    rw [walk, ih running, hydrateAll_cons running, hydrate_of_leaf leaf, List.reverse_cons,
      List.append_assoc]
    · rfl
    · exact leaf

theorem run_eq_recursion (config : Config) (registry : Registry H) (nodes : List Node) (host : H) :
    run config registry nodes host = hydrateAll config registry 0 nodes { host } :=
  walk_eq_resume _ [] rfl

/-- The walk gives what the recursion in document order gives, whatever elements the page and the
elements themselves include: forest, expansions, notices, host state and first error. What stands
outside of registered elements stays. -/
theorem run_eq_hydrateAll (config : Config) (registry : Registry H) (nodes : List Node) (host : H) :
    run config registry nodes host = hydrateAll config registry 0 nodes { host } ∧
      Node.bareAll registry (run config registry nodes host).1 = Node.bareAll registry nodes := by
  have same : run config registry nodes host = hydrateAll config registry 0 nodes { host } :=
    walk_eq_resume _ [] rfl
  rw [same]
  exact ⟨rfl, bareAll_hydrateAll config registry 0 nodes { host }⟩

end LiveMarkup.Hydration
