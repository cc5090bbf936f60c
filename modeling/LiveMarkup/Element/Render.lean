import LiveMarkup.Element.Slots
import LiveMarkup.Resolve

/-!
# Render functions

A render function is a program of hooks that ends with a template and its values. Each hook has an
answer of a type of its own. Between the hooks a render function may read and change the host
state, and call live elements like any other program. The first value of a slot comes from a
program too. What a memo computes may only read and change the host state: calls on live elements
while it is computed are left out.
-/

namespace LiveMarkup

/-- What a render function can see. -/
structure View where
  /-- The name of the tag. -/
  name : Text
  attrs : Keyed Json
  state : Keyed Json
  /-- The computed fields, as they were when the render started. -/
  computed : Keyed Json
  /-- The index of the element, when it is a live one. -/
  self : Option Nat

/-- A hook. -/
inductive Hook (H : Type) where
  /-- Look at attributes, state and computed fields. -/
  | view
  /-- Write a state field, and ask for a render. -/
  | setState (name : Text) (value : Json)
  /-- A JSON value that its setter can change; `init` ends with the first one. -/
  | useState (init : Program H)
  /-- An integer that its setter or its dispatch function can change; `init` ends with the first
  one. -/
  | useInt (init : Program H)
  /-- A cell that stays the same in every render; `init` ends with its first content. -/
  | useCell (init : Program H)
  /-- Read a cell. -/
  | readCell (cell : Nat)
  /-- Write a cell. -/
  | writeCell (cell : Nat) (n : Int)
  /-- A value that is computed anew only when the dependencies differ from those before. -/
  | useMemo (deps : List Json) (compute : H → Json × H)
  /-- A callback that stays the same until the dependencies differ from those before. -/
  | useCallback (deps : List Json) (body : List Value → Program H)
  /-- Run an effect after the render, always or when the dependencies differ from those before. -/
  | useEffect (kind : EffectKind) (deps : Option (List Json)) (effect : Program H)

namespace Hook

variable {H : Type}

/-- What a hook gives. A value with a setter comes with the slot that the setter changes; a
callback and a cell come as their numbers. -/
abbrev Answer : Hook H → Type
  | .view => View
  | .useState _ => Json × Nat
  | .useInt _ => Int × Nat
  | .useCell _ => Nat
  | .readCell _ => Int
  | .useMemo _ _ => Json
  | .useCallback _ _ => Nat
  | .setState _ _ | .writeCell _ _ | .useEffect _ _ _ => Unit

/-- The type of the value that a hook begins with, and the program that makes the first one. -/
def first? : Hook H → Option (ValueType × Program H)
  | .useState init => some (.json, init)
  | .useInt init => some (.int, init)
  | .useCell init => some (.cell, init)
  | _ => none

end Hook

/-- What has to be run before a hook in a slot can be answered: the program for the first value, if
there is none. -/
def Slots.pending? {H : Type} (s : Slots H) (slot : Nat) (h : Hook H) :
    Option (ValueType × Program H) :=
  h.first?.filter fun first => !s.holds slot first.1

/-- A render function over the host state `H`. -/
inductive Render (H : Type) where
  /-- End with a template and its values. -/
  | finish (result : TemplateResult)
  | hook (h : Hook H) (next : h.Answer → Render H)
  /-- Read the host state. -/
  | peek (next : H → Render H)
  /-- Change the host state. -/
  | poke (change : H → H) (next : Render H)
  /-- Run a program; away from live elements there is nothing for it to act on. -/
  | perform (p : Program H) (next : Render H)

/-! ## The meaning of hooks -/

/-- What hooks work on: the element as it is rendered, the next slot, and the host state. -/
structure RenderState (H : Type) where
  name : Text
  attrs : Keyed Json
  state : Keyed Json
  slots : Slots H
  computed : Keyed Json
  self : Option Nat
  cursor : Nat
  host : H

namespace RenderState

variable {H : Type}

/-- Take the next slot. -/
def advance (s : RenderState H) : RenderState H := { s with cursor := s.cursor + 1 }

/-- The value that a hook begins with is there, if need be the one that its program ends with. -/
def initialized (s : RenderState H) (h : Hook H) : RenderState H :=
  match s.slots.pending? s.cursor h with
  | none => s
  | some (type, init) =>
    let (v, host) := init.eval s.host
    { s with slots := s.slots.putFirst s.cursor type v, host }

/-- Answer a hook whose value is there. -/
def answer (s : RenderState H) : (h : Hook H) → h.Answer × RenderState H
  | .view => (⟨s.name, s.attrs, s.state, s.computed, s.self⟩, s)
  | .setState name value => ((), { s with state := Keyed.insert s.state name value })
  | .useState _ => (((s.slots.value? s.cursor SlotValue.json?).getD .null, s.cursor), s.advance)
  | .useInt _ => (((s.slots.value? s.cursor SlotValue.int?).getD 0, s.cursor), s.advance)
  | .useCell _ => ((s.slots.value? s.cursor SlotValue.cell?).getD 0, s.advance)
  | .readCell k => ((s.slots.cells[k]?).getD 0, s)
  | .writeCell k n => ((), { s with slots := { s.slots with cells := s.slots.cells.set k n } })
  | .useMemo deps compute =>
    let known :=
      if s.slots.depsMatch s.cursor deps then s.slots.value? s.cursor SlotValue.json? else none
    match known with
    | some j => (j, s.advance)
    | none =>
      let (j, host) := compute s.host
      let slots := (s.slots.setValue s.cursor (.json j)).setDeps s.cursor deps
      (j, { s.advance with slots, host })
  | .useCallback deps body =>
    let known :=
      if s.slots.depsMatch s.cursor deps then s.slots.value? s.cursor SlotValue.callback? else none
    match known with
    | some k => (k, s.advance)
    | none =>
      let (k, slots) := s.slots.newCallback body
      let slots := (slots.setValue s.cursor (.callback k)).setDeps s.cursor deps
      (k, { s.advance with slots })
  | .useEffect kind deps effect =>
    match deps with
    | none => ((), { s.advance with slots := s.slots.queueEffect kind s.cursor effect })
    | some deps =>
      if s.slots.depsMatch s.cursor deps then ((), s.advance)
      else
        let slots := (s.slots.setDeps s.cursor deps).queueEffect kind s.cursor effect
        ((), { s.advance with slots })

end RenderState

namespace Render

variable {H : Type}

/-- Render once, away from live elements. -/
def run : Render H → RenderState H → TemplateResult × RenderState H
  | .finish result, s => (result, s)
  | .hook h next, s =>
    let (a, s) := (s.initialized h).answer h
    run (next a) s
  | .peek next, s => run (next s.host) s
  | .poke change next, s => run next { s with host := change s.host }
  | .perform p next, s => run next { s with host := (p.eval s.host).2 }

end Render

end LiveMarkup
