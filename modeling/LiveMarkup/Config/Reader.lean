import LiveMarkup.Config
import LiveMarkup.Toml.Reader
import LiveMarkup.Toml.Record

/-!
# Settings files

A settings file is a TOML document with a table `render`. Settings that it does not give keep
their defaults.
-/

namespace LiveMarkup.Config

/-- The names of the settings in a file. -/
def fieldNames : List Text :=
  ["dev", "hydrate", "serialize_property_attributes", "max_hydration_depth"].map String.toList

/-- The settings of the table `render`. As an array it has to give all four. -/
def ofToml? (v : Toml) : Option Config := do
  match ← Toml.record? fieldNames v with
  | [dev, hydrate, serialize, depth] =>
    guard ((Toml.fields? v).isSome || depth.isSome)
    let dev ← Toml.optional Toml.boolean? dev
    let hydrate ← Toml.optional Toml.boolean? hydrate
    let serialize ← Toml.optional Toml.boolean? serialize
    let depth ← Toml.optional Toml.natural? depth
    let usual : Config := {}
    return ⟨dev.getD usual.dev, hydrate.getD usual.hydrate,
      serialize.getD usual.serializeProperties, depth.getD usual.maxDepth⟩
  | _ => none

/-- The settings that the text of a file gives. -/
def read? (t : Text) : Option Config := do
  match Keyed.get? (← Toml.read? t) "render".toList with
  | none => return {}
  | some v => ofToml? v

end LiveMarkup.Config
