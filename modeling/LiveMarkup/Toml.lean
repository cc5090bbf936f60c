import LiveMarkup.Binary64
import LiveMarkup.Keyed
import LiveMarkup.Toml.Moment

/-!
# TOML tables

The values of a TOML document, and how its lines build the tables. A table is spelled under a
header, implied by a longer header, made by dotted keys or written inline, and this decides which
later lines may still add to it: nothing is ever defined twice.
-/

namespace LiveMarkup

/-- How a table came about. -/
inductive TableForm where
  /-- It has a header of its own, or is the document. -/
  | header
  /-- The header of a table inside it implied it. -/
  | implied
  /-- A dotted key made it. -/
  | dotted
  /-- It is written inline, and complete. -/
  | inlined
  deriving DecidableEq, Repr, Inhabited

/-- A TOML value. -/
inductive Toml where
  | string (t : Text)
  | integer (n : Int)
  | float (x : Binary64)
  | boolean (b : Bool)
  | moment (m : Moment)
  | array (items : List Toml)
  | table (form : TableForm) (fields : List (Text × Toml))
  /-- The tables of a header in double brackets, the latest first; each has its fields. -/
  | tables (latest : List (Text × Toml)) (earlier : List Toml)
  deriving Repr, Inhabited

/-- A table under construction. -/
structure TomlTable where
  form : TableForm
  fields : Keyed Toml
  deriving Repr, Inhabited

namespace TomlTable

/-- Change the table that `path` leads to; `dotted` tells a path of dotted keys from that of a
header. Tables that are missing on the way are made. Dotted keys do not lead through tables that
have a header, and nothing leads through values. -/
def within (dotted : Bool) (change : TomlTable → Option TomlTable) :
    List Text → TomlTable → Option TomlTable
  | [], t => change t
  | key :: path, t =>
    match Keyed.get? t.fields key with
    | none => do
      let inner ← within dotted change path ⟨if dotted then .dotted else .implied, []⟩
      return { t with fields := Keyed.insert t.fields key (.table inner.form inner.fields) }
    | some (.table form fields) =>
      if form = .inlined || (dotted && form = .header) then none
      else do
        let inner ← within dotted change path ⟨form, fields⟩
        return { t with fields := Keyed.insert t.fields key (.table inner.form inner.fields) }
    | some (.tables latest earlier) => do
      let inner ← within dotted change path ⟨.header, latest⟩
      return { t with fields := Keyed.insert t.fields key (.tables inner.fields earlier) }
    | some _ => none

/-- Put a value under a dotted key, the last of whose names is `key`. -/
def insertAt (path : List Text) (key : Text) (value : Toml) (t : TomlTable) : Option TomlTable :=
  within true
    (fun t =>
      if (t.form == .dotted) == path.isEmpty then none
      else if Keyed.has t.fields key then none
      else some { t with fields := Keyed.insert t.fields key value })
    path t

/-- Put values under dotted keys, one after the other. -/
def insertAll (t : TomlTable) : List (List Text × Text × Toml) → Option TomlTable
  | [] => some t
  | (path, key, value) :: pairs => do
    let t ← insertAt path key value t
    insertAll t pairs

/-- The table of an inline table's pairs. -/
def ofInline (pairs : List (List Text × Text × Toml)) : Option Toml := do
  let t ← insertAll ⟨.header, []⟩ pairs
  return .table .inlined t.fields

/-- A part of a document: a header and the pairs below it. -/
structure Section where
  /-- The header is in double brackets. -/
  repeated : Bool
  path : List Text
  key : Text
  pairs : List (List Text × Text × Toml)

/-- Add a part of a document. A header in single brackets makes a table, or completes one that
was only implied; one in double brackets adds a table to those of its name. -/
def addSection (t : TomlTable) (s : Section) : Option TomlTable :=
  within false
    (fun t =>
      let put (v : Toml) : TomlTable := { t with fields := Keyed.insert t.fields s.key v }
      match s.repeated, Keyed.get? t.fields s.key with
      | false, none => do
        let inner ← insertAll ⟨.header, []⟩ s.pairs
        return put (.table .header inner.fields)
      | false, some (.table .implied fields) => do
        let inner ← insertAll ⟨.header, fields⟩ s.pairs
        return put (.table .header inner.fields)
      | true, none => do
        let inner ← insertAll ⟨.header, []⟩ s.pairs
        return put (.tables inner.fields [])
      | true, some (.tables latest earlier) => do
        let inner ← insertAll ⟨.header, []⟩ s.pairs
        return put (.tables inner.fields (.table .header latest :: earlier))
      | _, _ => none)
    s.path t

/-- The table of a document: the pairs before the first header, then the parts. -/
def ofSections (pairs : List (List Text × Text × Toml)) (sections : List Section) :
    Option TomlTable := do
  let t ← insertAll ⟨.header, []⟩ pairs
  sections.foldlM addSection t

end TomlTable

namespace Toml

/-- The name of the only field of a moment. -/
def momentField : Text := "$__toml_private_datetime".toList

/-- The fields of a table. A moment counts as a table whose only field is its text. -/
def fields? : Toml → Option (Keyed Toml)
  | .table _ fields => some fields
  | .moment m => some [(momentField, .string m.text)]
  | _ => none

/-- The items of an array, also of one made of tables. -/
def items? : Toml → Option (List Toml)
  | .array items => some items
  | .tables latest earlier => some (earlier.reverse ++ [.table .header latest])
  | _ => none

end Toml

end LiveMarkup
