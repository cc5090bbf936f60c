import LiveMarkup.Toml

/-!
# Records in TOML

A record is a table with known fields, of which some may be missing and others are passed over. It
may also be written as an array of its fields in order, as far as they are given.
-/

namespace LiveMarkup.Toml

/-- The values of the fields with the given names. -/
def record? (names : List Text) (v : Toml) : Option (List (Option Toml)) :=
  match fields? v with
  | some fields => some (names.map fun name => Keyed.get? fields name)
  | none => (items? v).map fun items => (List.range names.length).map fun i => items[i]?

/-- A truth value. -/
def boolean? : Toml → Option Bool
  | .boolean b => some b
  | _ => none

/-- A number that is not negative. -/
def natural? : Toml → Option Nat
  | .integer n => if 0 ≤ n then some n.toNat else none
  | _ => none

/-- A text. -/
def text? : Toml → Option Text
  | .string t => some t
  | _ => none

/-- A table of texts. -/
def texts? (v : Toml) : Option (Keyed Text) := do
  (← fields? v).mapM fun p => (text? p.2).map fun t => (p.1, t)

/-- Read a field that may be missing; a field that cannot be read spoils the record. -/
def optional {α : Type} (read : Toml → Option α) : Option Toml → Option (Option α)
  | none => some none
  | some v => (read v).map some

end LiveMarkup.Toml
