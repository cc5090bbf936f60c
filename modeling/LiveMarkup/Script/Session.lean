import LiveMarkup.Live.World
import LiveMarkup.Script.Blueprint

/-!
# Sessions

A session drives live scripted elements from outside, one step at a time: it makes and drops
elements, acts on them, renders them and runs the event loop.
-/

namespace LiveMarkup

/-- A world of scripted elements. -/
abbrev Session := World Memory

namespace Session

/-- A session without elements; the host has the given run-queues. -/
def start (config : Config) (custom : List (RunQueue (Program Memory))) : Session :=
  { config, custom, host := {} }

/-- How many steps one call of the host may take. -/
def patience : Nat := 100000000

/-- Run a program from outside, up to its end. -/
def execute (s : Session) (p : Program Memory) : Session :=
  World.run patience (World.start { s with host := { s.host with answer := .none } } p none)

/-- Drive the event loop. -/
def drive (s : Session) (d : Drive) : Session :=
  s.execute (.drive d fun n => .poke (fun m => { m with answer := .count n }) Program.skip)

/-- Render an element outside the queue. -/
def render (s : Session) (i : Nat) : Session :=
  s.execute (.render i fun markup =>
    .poke (fun m => { m with answer := (markup.map Answer.markup).getD .none }) Program.skip)

/-- Act on an element. -/
def act (s : Session) (i : Nat) (a : Action) : Session :=
  s.execute (a.perform i Program.skip)

/-- The trace and the notices since the last time they were taken, and the session without them. -/
def takeLogs (s : Session) : List Text × List Notice × Session :=
  (s.host.trace, s.notices, { s with host := { s.host with trace := [] }, notices := [] })

end Session

/-! ## Scripted jobs -/

/-- Where a job is queued. -/
inductive JobPlace where
  | microtask
  | task
  /-- On a run-queue of the host, by number. -/
  | queue (k : Nat)
  deriving DecidableEq, Repr, Inhabited

/-- A job that is traced when it runs, and then queues further ones. -/
inductive JobSpec where
  | mk (place : JobPlace) (id : Text) (further : List JobSpec)
  deriving Inhabited

namespace JobPlace

/-- What stands in the trace before a job from this place. -/
def sign : JobPlace → Text
  | .microtask => ['m', ':']
  | .task => ['t', ':']
  | .queue k => 'q' :: (Text.ofNat k ++ [':'])

/-- Queue a job at this place. -/
def enqueue (job next : Program Memory) : JobPlace → Program Memory
  | .microtask => .queue .microtask job next
  | .task => .queue .task job next
  | .queue k => .push k job next

end JobPlace

namespace JobSpec

mutual

/-- Queue a job. -/
def enqueue (next : Program Memory) : JobSpec → Program Memory
  | .mk place id further =>
    place.enqueue (.poke (Memory.log (place.sign ++ id)) (enqueueAll further)) next

/-- Queue jobs one after the other. -/
def enqueueAll : List JobSpec → Program Memory
  | [] => Program.skip
  | job :: jobs => enqueue (enqueueAll jobs) job

end

end JobSpec

end LiveMarkup
