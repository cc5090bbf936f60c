import LiveMarkup.Config
import LiveMarkup.Element.Declaration
import LiveMarkup.Element.Render

/-!
# Elements

An element is a declaration with a render function. A registry finds elements by the name of their
tag.
-/

namespace LiveMarkup

/-- An element: what it declares and how it renders. -/
structure Element (H : Type) extends Declaration where
  render : Render H

namespace Element

variable {H : Type}

/-- The element with a given name; its letters are put in lower case. -/
def named (name : Text) (render : Render H) : Element H := { name := Text.lower name, render }

/-- The state that a render starts from, away from live elements. -/
def renderState (e : Element H) (attrs : Keyed Json) (host : H) : RenderState H where
  name := e.name
  attrs := attrs
  state := e.initialState
  slots := {}
  computed := e.computed e.initialState
  self := none
  cursor := 0
  host := host

/-- The markup of an element with the given attributes, rendered once, and the host state after
it. -/
def markup (e : Element H) (config : Config) (attrs : Keyed Json) (host : H) :
    Except ResolveError Text × H :=
  let (result, s) := e.render.run (e.renderState attrs host)
  (result.resolve config, s.host)

end Element

/-- Elements, each under a name of its own, in the order in which they were registered. -/
structure Registry (H : Type) where
  elements : List (Element H) := []

namespace Registry

variable {H : Type}

/-- The element of a tag; case does not matter. -/
def get? (r : Registry H) (tag : Text) : Option (Element H) :=
  r.elements.find? fun e => e.name = Text.lower tag

/-- There is an element for a tag. -/
def has (r : Registry H) (tag : Text) : Bool := (r.get? tag).isSome

/-- How many elements there are. -/
def size (r : Registry H) : Nat := r.elements.length

/-- Register an element, unless one of its name is there. Tells whether it is new. -/
def register (r : Registry H) (e : Element H) : Bool × Registry H :=
  if r.has e.name then (false, r) else (true, ⟨r.elements ++ [e]⟩)

/-- Register elements one after the other. Tells how many are new. -/
def registerAll (r : Registry H) : List (Element H) → Nat × Registry H
  | [] => (0, r)
  | e :: es =>
    let (new, r) := r.register e
    let (count, r) := registerAll r es
    ((if new then 1 else 0) + count, r)

/-- The names of the elements, sorted. -/
def names (r : Registry H) : List Text :=
  (r.elements.map fun e => e.name).mergeSort Text.le

end Registry

end LiveMarkup
