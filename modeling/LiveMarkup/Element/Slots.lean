import LiveMarkup.Element.Program

/-!
# Hook slots

Each hook of a render takes the next slot of its element, so a hook finds its own slot again in the
next render if the hooks come in the same order. A slot has places for a value, for the
dependencies it was made with, for an effect that waits to be run and for the cleanup of the one
that has run. A value of another type than the hook's own counts as none.
-/

namespace LiveMarkup

/-- Places by number, most of them empty. -/
abbrev Places (α : Type) := List (Option α)

namespace Places

variable {α : Type}

/-- What is at place `i`. -/
def get? (p : Places α) (i : Nat) : Option α :=
  match p, i with
  | [], _ => none
  | a :: _, 0 => a
  | _ :: p, i + 1 => get? p i

/-- Make `a` what is at place `i`. -/
def set (p : Places α) (i : Nat) (a : Option α) : Places α :=
  match p, i with
  | [], 0 => [a]
  | [], i + 1 => none :: set [] i a
  | _ :: p, 0 => a :: p
  | b :: p, i + 1 => b :: set p i a

theorem get?_set (p : Places α) (i j : Nat) (a : Option α) :
    get? (set p i a) j = if i = j then a else get? p j := by
  induction i generalizing p j with
  | zero => cases p <;> cases j <;> simp [set, get?]
  | succ i ih =>
    cases p <;> cases j
    · simp [set, get?]
    · simp [set, get?, ih]
    · simp [set, get?]
    · simp [set, get?, ih]

/-- All that is there, with its places, in order. -/
def entriesFrom (i : Nat) : Places α → List (Nat × α)
  | [] => []
  | none :: p => entriesFrom (i + 1) p
  | some a :: p => (i, a) :: entriesFrom (i + 1) p

/-- All that is there, with its places, in order. -/
def entries (p : Places α) : List (Nat × α) := entriesFrom 0 p

end Places

/-- The types of the values that hooks begin with. -/
inductive ValueType where
  | json
  | int
  | cell
  deriving DecidableEq, Repr

/-- The value is of a type. -/
def SlotValue.isOf : SlotValue → ValueType → Bool
  | .json _, .json | .int _, .int | .cell _, .cell => true
  | _, _ => false

/-- When effects run: in the microtask after the renders, or in a later task. -/
inductive EffectKind where
  | layout
  | passive
  deriving DecidableEq, Repr, Inhabited

/-- The hook slots of an element. -/
structure Slots (H : Type) where
  values : Places SlotValue := []
  deps : Places (List Json) := []
  /-- Passive effects that wait to be run. -/
  passive : Places (Program H) := []
  /-- Layout effects that wait to be run. -/
  layout : Places (Program H) := []
  cleanups : Places (Program H) := []
  /-- The contents of cells. -/
  cells : List Int := []
  /-- The bodies of callbacks. -/
  callbacks : List (List Value → Program H) := []

namespace Slots

variable {H : Type}

/-- The value in a slot, as `read` sees it. -/
def value? {α : Type} (s : Slots H) (slot : Nat) (read : SlotValue → Option α) : Option α :=
  (Places.get? s.values slot).bind read

/-- Put a value into a slot. -/
def setValue (s : Slots H) (slot : Nat) (v : SlotValue) : Slots H :=
  { s with values := Places.set s.values slot (some v) }

/-- A slot was made with these dependencies. -/
def depsMatch (s : Slots H) (slot : Nat) (deps : List Json) : Bool :=
  match Places.get? s.deps slot with
  | some stored => Json.sameItems stored deps
  | none => false

/-- Note the dependencies of a slot. -/
def setDeps (s : Slots H) (slot : Nat) (deps : List Json) : Slots H :=
  { s with deps := Places.set s.deps slot (some deps) }

/-- The effects of one kind that wait to be run. -/
def effects (s : Slots H) : EffectKind → Places (Program H)
  | .layout => s.layout
  | .passive => s.passive

/-- Put effects of one kind in place of those that wait to be run. -/
def setEffects (s : Slots H) (kind : EffectKind) (effects : Places (Program H)) : Slots H :=
  match kind with
  | .layout => { s with layout := effects }
  | .passive => { s with passive := effects }

/-- Let an effect wait in a slot, in place of one that has not run. -/
def queueEffect (s : Slots H) (kind : EffectKind) (slot : Nat) (effect : Program H) : Slots H :=
  s.setEffects kind (Places.set (s.effects kind) slot (some effect))

/-- Take all effects of one kind, in the order of their slots. -/
def takeEffects (s : Slots H) (kind : EffectKind) : List (Nat × Program H) × Slots H :=
  (Places.entries (s.effects kind), s.setEffects kind [])

/-- Take the cleanup of a slot. -/
def takeCleanup (s : Slots H) (slot : Nat) : Option (Program H) × Slots H :=
  match Places.get? s.cleanups slot with
  | some c => (some c, { s with cleanups := Places.set s.cleanups slot none })
  | none => (none, s)

/-- Keep the cleanup of a slot. -/
def setCleanup (s : Slots H) (slot : Nat) (cleanup : Program H) : Slots H :=
  { s with cleanups := Places.set s.cleanups slot (some cleanup) }

/-- Take all cleanups, in the order of their slots. -/
def takeCleanups (s : Slots H) : List (Program H) × Slots H :=
  ((Places.entries s.cleanups).map Prod.snd, { s with cleanups := [] })

/-- Make a cell. -/
def newCell (s : Slots H) (n : Int) : Nat × Slots H :=
  (s.cells.length, { s with cells := s.cells ++ [n] })

/-- Make a callback. -/
def newCallback (s : Slots H) (body : List Value → Program H) : Nat × Slots H :=
  (s.callbacks.length, { s with callbacks := s.callbacks ++ [body] })

/-- There is a value of a type in a slot. -/
def holds (s : Slots H) (slot : Nat) (type : ValueType) : Bool :=
  (Places.get? s.values slot).any (·.isOf type)

/-- Put the first value of a type into a slot: what a program has ended with, or a cell for it.
What is not of the type counts as null or zero. -/
def putFirst (s : Slots H) (slot : Nat) (type : ValueType) (v : Option SlotValue) : Slots H :=
  match type with
  | .json => s.setValue slot (.json ((v.bind SlotValue.json?).getD .null))
  | .int => s.setValue slot (.int ((v.bind SlotValue.int?).getD 0))
  | .cell =>
    let (k, s) := s.newCell ((v.bind SlotValue.int?).getD 0)
    s.setValue slot (.cell k)

end Slots

end LiveMarkup
