import LiveMarkup.Hydration.Walk
import LiveMarkup.Settle

/-!
# Rendering pages

A page is a template with values: it is resolved, and then the registered elements in its markup
are expanded. Markup in which nothing is to be expanded is passed on as it is.
-/

namespace LiveMarkup

/-- What rendering a page comes to, with the notices on the way and the host state after it. -/
structure Page (H : Type) where
  markup : Except RenderError Text
  notices : List Notice := []
  host : H

namespace Page

variable {H : Type}

/-- Expand the elements in markup. -/
def ofMarkup (config : Config) (registry : Registry H) (markup : Text) (host : H) : Page H :=
  if !config.hydrate || registry.size = 0 then { markup := .ok markup, host }
  else
    let (nodes, h) := Hydration.run config registry (Node.parse markup) host
    let markup : Except RenderError Text :=
      match h.error with
      | some e => .error e
      | none => .ok (if h.expansions = 0 then markup else Node.serialize nodes)
    { markup, notices := h.notices, host := h.host }

/-- Render a page whose values are all there. -/
def render (config : Config) (registry : Registry H) (r : TemplateResult) (host : H) : Page H :=
  match r.resolve config with
  | .error e => { markup := .error (.resolve e), host }
  | .ok markup => ofMarkup config registry markup host

/-- Wait for all that is pending in a page and render it. Also tells which labels were noted while
waiting. -/
def renderSettled (config : Config) (registry : Registry H) (r : TemplateResult) (host : H) :
    Page H × List Text :=
  match r.settle {} with
  | (.error e, s) => ({ markup := .error (.resolve e), host }, s.polled)
  | (.ok r, s) => (render config registry r host, s.polled)

end Page

end LiveMarkup
