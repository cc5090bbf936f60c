import LiveMarkup.Value

/-!
# Programs

What callbacks, effects and cleanups do, as data: each step of a program is one call on a live
element, on a handle, or on the event loop, and the program goes on with what the call gives. So
are the functions that a setter or a dispatch function is called with, and those that make the
first value of a hook; they end with a value. The type `H` is the host's own state, which programs
may read and change; elements are told apart by their index.
-/

namespace LiveMarkup

/-- A call on a live element. -/
inductive Request where
  /-- Attach it. -/
  | connect
  /-- Detach it. -/
  | disconnect
  /-- Ask for a render. -/
  | update
  /-- Set an attribute from its text, or take it away. -/
  | setAttribute (name : Text) (raw : Option Text)
  /-- Set a state field. -/
  | setState (name : Text) (value : Json)

/-- The value of a slot. Cells and callbacks are told apart by number. -/
inductive SlotValue where
  | json (j : Json)
  | int (n : Int)
  | cell (k : Nat)
  | callback (k : Nat)
  deriving Repr

namespace SlotValue

/-- The value, if it is a JSON value. -/
def json? : SlotValue → Option Json
  | .json j => some j
  | _ => none

/-- The value, if it is an integer. -/
def int? : SlotValue → Option Int
  | .int n => some n
  | _ => none

/-- The value, if it is a cell. -/
def cell? : SlotValue → Option Nat
  | .cell k => some k
  | _ => none

/-- The value, if it is a callback. -/
def callback? : SlotValue → Option Nat
  | .callback k => some k
  | _ => none

/-- Another value of the same type differs from this one. -/
def differs : SlotValue → SlotValue → Bool
  | .json j, .json next => !Json.same next j
  | .int n, .int next => decide (next ≠ n)
  | _, _ => false

end SlotValue

/-- What a setter or a dispatch function does: a program of type `P` for each value that can be in
its slot. A slot that holds a value of the other type is left alone. -/
inductive Revision (P : Type) where
  | json (change : Json → P)
  | int (change : Int → P)

namespace Revision

variable {P : Type}

/-- The program for a value. -/
def program? : Revision P → SlotValue → Option P
  | .json change, .json j => some (change j)
  | .int change, .int n => some (change n)
  | _, _ => none

end Revision

/-- The two queues of the event loop. -/
inductive Runner where
  | microtask
  | task
  deriving DecidableEq, Repr, Inhabited

/-- The ways to drive the event loop. -/
inductive Drive where
  /-- Run microtasks until there are none; gives how many have run. -/
  | microtasks
  /-- Run the oldest task and then all microtasks; gives whether there was a task. -/
  | task
  /-- Run tasks, each with its microtasks, until there are none. -/
  | tasks
  /-- Run microtasks and then tasks until there is neither. -/
  | untilIdle
  deriving DecidableEq, Repr, Inhabited

/-- A program over the host state `H`. An effect may end with a program that undoes it. -/
inductive Program (H : Type) where
  | done (undo : Option (Program H))
  /-- End with a value, for the slot that needs one. -/
  | give (v : SlotValue)
  /-- Read the host state. -/
  | peek (next : H → Program H)
  /-- Change the host state. -/
  | poke (change : H → H) (next : Program H)
  /-- Call a live element. -/
  | request (i : Nat) (r : Request) (next : Program H)
  /-- Read a state field through its handle. -/
  | getField (i : Nat) (name : Text) (next : Json → Program H)
  /-- Write a state field through its handle. -/
  | setField (i : Nat) (name : Text) (value : Json) (next : Program H)
  /-- Change a slot through its setter or dispatch function. -/
  | revise (i slot : Nat) (r : Revision (Program H)) (next : Program H)
  /-- Call a callback that element `i` has made. -/
  | call (i callback : Nat) (args : List Value) (next : Program H)
  /-- Queue a job on the event loop. -/
  | queue (runner : Runner) (job : Program H) (next : Program H)
  /-- Push a job onto a run-queue of the host. -/
  | push (q : Nat) (job : Program H) (next : Program H)
  /-- Drive the event loop. -/
  | drive (d : Drive) (next : Nat → Program H)
  /-- Render a live element outside the queue; gives nothing when the host no longer holds it. -/
  | render (i : Nat) (next : Option (Except ResolveError Text) → Program H)

namespace Program

variable {H : Type}

/-- Do nothing. -/
def skip : Program H := .done none

instance : Inhabited (Program H) := ⟨skip⟩

/-- Make a single call. -/
def ask (i : Nat) (r : Request) : Program H := .request i r skip

/-- Run a program away from live elements, where its calls have nothing to act on: the value that it
ends with, and the host state behind it. -/
def eval : Program H → H → Option SlotValue × H
  | .done _, host => (none, host)
  | .give v, host => (some v, host)
  | .peek next, host => eval (next host) host
  | .poke change next, host => eval next (change host)
  | .getField _ _ next, host => eval (next .null) host
  | .drive _ next, host => eval (next 0) host
  | .render _ next, host => eval (next none) host
  | .request _ _ next, host | .setField _ _ _ next, host | .revise _ _ _ next, host
  | .call _ _ _ next, host | .queue _ _ next, host | .push _ _ next, host => eval next host

end Program

end LiveMarkup
