import LiveMarkup.Element
import LiveMarkup.Markup.Tree
import LiveMarkup.Notice

/-!
# Hydration

Registered elements in a tree are expanded in document order: the attributes of the tag are read,
the element is rendered, and what its markup parses to takes the place of the tag's children. The
new children are expanded in turn. Elements may expand inside one another only so deep.

`Hydration.hydrateAll` is the definition by recursion; `Hydration.run` does the same from an explicit
stack.
-/

namespace LiveMarkup

/-- Why a page cannot be rendered. -/
inductive RenderError where
  /-- A template cannot be resolved. -/
  | resolve (e : ResolveError)
  /-- An element stands inside too many expanded ones. -/
  | hydrationDepth (name : Text) (depth : Nat)
  deriving DecidableEq, Repr

namespace RenderError

/-- The error in words. -/
def message : RenderError → Text
  | .resolve e => e.message
  | .hydrationDepth name depth =>
    ["hydration of <".toList, name, "> exceeds the maximum depth of ".toList,
      Text.ofNat depth].flatten

end RenderError

/-- The element of a tag. A void tag has none. -/
def Registry.forTag? {H : Type} (r : Registry H) (head : TagHead) : Option (Element H) :=
  if head.void then none else r.get? head.name

/-- What hydration has come to so far. -/
structure Hydration (H : Type) where
  /-- How many elements have been expanded. -/
  expansions : Nat := 0
  /-- Notices, oldest first. -/
  notices : List Notice := []
  host : H
  /-- What has put an end to it. -/
  error : Option RenderError := none

namespace Hydration

variable {H : Type}

/-- Render `element` for a tag with the given attributes. Gives its nodes, or nothing after an
error. -/
def expand (config : Config) (element : Element H) (attributes : Attributes)
    (h : Hydration H) : Option (List Node) × Hydration H :=
  let (attrs, problems) := element.coerceAttrs attributes
  let (markup, host) := element.markup config attrs h.host
  let notices := h.notices ++ if config.dev then problems.map .attribute else []
  match markup with
  | .error e => (none, { h with notices, host, error := some (.resolve e) })
  | .ok markup =>
    (some (Node.parse markup), { h with notices, host, expansions := h.expansions + 1 })

mutual

/-- Hydrate one node that stands inside `depth` expanded elements. -/
def hydrate (config : Config) (registry : Registry H) (depth : Nat) (n : Node)
    (h : Hydration H) : Node × Hydration H :=
  match n with
  | .tag head children =>
    match registry.forTag? head with
    | none =>
      let (children, h) := hydrateAll config registry depth children h
      (.tag head children, h)
    | some element =>
      if config.maxDepth ≤ depth then
        (.tag head children, { h with error := some (.hydrationDepth head.name depth) })
      else
        match expand config element head.attributes h with
        | (none, h) => (.tag head children, h)
        | (some nodes, h) =>
          let (nodes, h) := hydrateAll config registry (depth + 1) nodes h
          (.tag head nodes, h)
  | n => (n, h)
termination_by (config.maxDepth - depth, sizeOf n)

/-- Hydrate the nodes of a row, from left to right, up to the first error. -/
def hydrateAll (config : Config) (registry : Registry H) (depth : Nat) (nodes : List Node)
    (h : Hydration H) : List Node × Hydration H :=
  match nodes with
  | [] => ([], h)
  | n :: ns =>
    if h.error.isSome then (n :: ns, h)
    else
      let (n, h) := hydrate config registry depth n h
      let (ns, h) := hydrateAll config registry depth ns h
      (n :: ns, h)
termination_by (config.maxDepth - depth, sizeOf nodes)

end

end Hydration

end LiveMarkup
