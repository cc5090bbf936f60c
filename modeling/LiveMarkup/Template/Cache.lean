import LiveMarkup.Template

/-!
# Caching templates

Fragment lists that stay where they are can be told apart by their place, so the template of each
needs to be built only once. The cache keeps one template per list; a list whose fragments do not
make a template is tried again each time.
-/

namespace LiveMarkup

/-- A list of fragments that stays where it is. -/
structure StaticFragments where
  /-- Where the list is stored. Lists without fragments take no room and can share a place. -/
  place : Nat
  fragments : List Text
  deriving DecidableEq, Repr

namespace StaticFragments

/-- What tells lists apart: place and length. -/
def key (s : StaticFragments) : Nat × Nat := (s.place, s.fragments.length)

end StaticFragments

/-- A template in a cache; the serial number tells it from other templates in the same cache. -/
structure CachedTemplate where
  serial : Nat
  template : Template
  deriving Repr

/-- Templates under the keys of the lists they were made from. -/
structure TemplateCache where
  entries : List ((Nat × Nat) × CachedTemplate) := []
  deriving Repr

namespace TemplateCache

/-- How many templates the cache holds. -/
def size (cache : TemplateCache) : Nat := cache.entries.length

/-- The template under a key. -/
def get? (cache : TemplateCache) (key : Nat × Nat) : Option CachedTemplate :=
  cache.entries.lookup key

/-- The template of a list, from the cache or made by `parse` and put there. -/
def fetchBy {m : Type → Type} [Monad m] (cache : TemplateCache)
    (parse : List Text → m (Except TemplateError Template)) (list : StaticFragments) :
    m (Except TemplateError CachedTemplate × TemplateCache) :=
  match cache.get? list.key with
  | some t => pure (.ok t, cache)
  | none => do
    match ← parse list.fragments with
    | .error e => return (.error e, cache)
    | .ok template =>
      let t : CachedTemplate := ⟨cache.size, template⟩
      return (.ok t, ⟨(list.key, t) :: cache.entries⟩)

/-- The template of a list, from the cache or built and put there. -/
def fetch (cache : TemplateCache) (list : StaticFragments) :
    Except TemplateError CachedTemplate × TemplateCache :=
  Id.run (cache.fetchBy (fun fragments => pure (Template.ofFragments fragments)) list)

end TemplateCache

end LiveMarkup
