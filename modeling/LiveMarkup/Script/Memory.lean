import LiveMarkup.Element.Render

/-!
# What scripted elements remember

Scripted elements share a memory: a trace of what they did, and the handles that their latest
renders gave out, each under the index of the element and the number of the hook.
-/

namespace LiveMarkup

/-- What a hook of a live element can be reached by. -/
inductive Handle where
  /-- The setter of a JSON value. -/
  | json (slot : Nat)
  /-- The setter of an integer. -/
  | int (slot : Nat)
  /-- The dispatch function of a reducer. -/
  | reducer (slot : Nat)
  /-- A state field. -/
  | field (name : Text)
  /-- A callback. -/
  | callback (k : Nat)
  deriving DecidableEq, Repr

/-- What a call of the host came to. -/
inductive Answer where
  | none
  | count (n : Nat)
  | markup (m : Except ResolveError Text)

/-- The memory of scripted elements. -/
structure Memory where
  /-- What was done, oldest first. -/
  trace : List Text := []
  handles : List ((Nat × Nat) × Handle) := []
  /-- For each callback hook the callback that it gave last, and how many different ones it gave. -/
  callbacks : List ((Nat × Nat) × (Nat × Nat)) := []
  /-- What the latest call of the host came to. -/
  answer : Answer := .none

namespace Memory

/-- Add a line to the trace. -/
def log (line : Text) (m : Memory) : Memory := { m with trace := m.trace ++ [line] }

/-- Replace what is under a key. -/
def replace {α : Type} (key : Nat × Nat) (a : α) (entries : List ((Nat × Nat) × α)) :
    List ((Nat × Nat) × α) :=
  (key, a) :: entries.filter fun e => e.1 ≠ key

/-- Remember a handle. -/
def keep (key : Nat × Nat) (h : Handle) (m : Memory) : Memory :=
  { m with handles := replace key h m.handles }

/-- The handle of a hook. -/
def handle? (m : Memory) (key : Nat × Nat) : Option Handle := m.handles.lookup key

/-- How many different callbacks a hook has given, with `k` as the one it gives now. -/
def callbackCount (m : Memory) (key : Nat × Nat) (k : Nat) : Nat :=
  match m.callbacks.lookup key with
  | some (last, count) => if last = k then count else count + 1
  | none => 1

/-- Remember the callback that a hook gives now. -/
def keepCallback (key : Nat × Nat) (k : Nat) (m : Memory) : Memory :=
  let count := m.callbackCount key k
  { m.keep key (.callback k) with callbacks := replace key (k, count) m.callbacks }

end Memory

end LiveMarkup
