import LiveMarkup.Element
import LiveMarkup.Live.RunQueue
import LiveMarkup.Notice

/-!
# Live elements

Live elements keep attributes, state and hook slots from one render to the next. They share an
event loop with a queue of microtasks and one of tasks, and three run-queues on top of it: renders
are flushed in a microtask, oldest first; layout effects in a microtask behind them and passive
effects in a later task, both newest first. Nothing runs until the loop is driven.

A world is all of that at one moment. What is being done is a stack of activities, so that a render
or an effect can be interrupted by what it calls; `World.step` does one step of the topmost
activity and `World.run` goes on until none is left.
-/

namespace LiveMarkup

/-- A live element. -/
structure Instance (H : Type) where
  element : Element H
  attrs : Keyed Json := []
  state : Keyed Json
  slots : Slots H := {}
  /-- A render has been asked for and is not over. -/
  dirty : Bool := false
  connected : Bool := false
  /-- The host holds it. -/
  held : Bool := true
  /-- The markup of the latest pass that came to some. -/
  output : Text := []
  /-- How many times it has been rendered. -/
  renders : Nat := 0

/-- The run-queues. -/
inductive QueueId where
  | renders
  | layout
  | passive
  /-- A queue of the host, by number. -/
  | custom (k : Nat)
  deriving DecidableEq, Repr

/-- A job on the event loop. -/
inductive Job (H : Type) where
  | program (p : Program H)
  /-- Hand over what is in a run-queue. -/
  | flush (q : QueueId)

/-- Where the undoing of a program is kept: a slot of an element. -/
structure CleanupSlot where
  owner : Nat
  slot : Nat
  deriving DecidableEq, Repr

/-- What is kept of the end of a program, and where. -/
inductive Keep where
  /-- Its undoing. -/
  | cleanup (k : CleanupSlot)
  /-- The first value of a slot of element `i`. -/
  | first (i slot : Nat) (type : ValueType)
  /-- A value for a slot of element `i`, in the place of the one that the slot had. -/
  | change (i slot : Nat) (current : SlotValue)

namespace Keep

/-- Where an undoing is kept. -/
def cleanup? : Keep → Option CleanupSlot
  | .cleanup k => some k
  | .first _ _ _ | .change _ _ _ => none

/-- The element whose setter or dispatch function has been called. -/
def changing? : Keep → Option Nat
  | .change i _ _ => some i
  | .cleanup _ | .first _ _ _ => none

end Keep

/-- What a render is for. -/
inductive Purpose (H : Type) where
  /-- A pass from the queue. -/
  | pass
  /-- A program that asked for the markup and goes on with it. -/
  | query (next : Option (Except ResolveError Text) → Program H) (keep : Option Keep)

/-- Something that is being done. -/
inductive Activity (H : Type) where
  /-- Run a program; something of its end is kept, or nothing. -/
  | program (p : Program H) (keep : Option Keep)
  /-- Run microtasks until there are none, and go on with how many have run. -/
  | checkpoint (ran : Nat) (next : Nat → Program H) (keep : Option Keep)
  /-- Hand over what is in a run-queue. -/
  | flush (q : QueueId)
  /-- Render an element: what is left of its render function, its computed fields and its next
  slot. -/
  | render (i : Nat) (rest : Render H) (computed : Keyed Json) (cursor : Nat)
      (purpose : Purpose H)
  /-- Run effects of an element, each after the cleanup of its slot. -/
  | effects (i : Nat) (rest : List (Nat × Program H))

/-- Live elements, their event loop, and what is being done. -/
structure World (H : Type) where
  config : Config
  instances : List (Instance H) := []
  microtasks : List (Job H) := []
  tasks : List (Job H) := []
  renders : RunQueue Nat := ⟨.microtask, .fifo, []⟩
  layout : RunQueue Nat := ⟨.microtask, .filo, []⟩
  passive : RunQueue Nat := ⟨.task, .filo, []⟩
  custom : List (RunQueue (Program H)) := []
  /-- What is being done, innermost first. -/
  stack : List (Activity H) := []
  /-- Notices, oldest first. -/
  notices : List Notice := []
  host : H

namespace World

variable {H : Type}

/-! ## Instances -/

/-- Change an instance. -/
def modify (w : World H) (i : Nat) (change : Instance H → Instance H) : World H :=
  { w with instances := w.instances.modify i change }

/-- An instance that the host holds. -/
def held? (w : World H) (i : Nat) : Option (Instance H) :=
  (w.instances[i]?).filter fun x => x.held

/-- The activity works on instance `i`. -/
def mentions (i : Nat) : Activity H → Bool
  | .render j _ _ _ .pass => i == j
  | .render j _ _ _ (.query _ keep) => i == j || (keep.bind Keep.changing?) == some i
  | .effects j _ => i == j
  | .program _ keep | .checkpoint _ _ keep => (keep.bind Keep.changing?) == some i
  | .flush _ => false

/-- Something still refers to instance `i`: the host, a queue or what is being done. -/
def isAlive (w : World H) (i : Nat) : Bool :=
  (w.held? i).isSome || w.renders.items.contains i || w.layout.items.contains i ||
    w.passive.items.contains i || w.stack.any (mentions i)

/-- An instance that setters and state handles still reach. -/
def alive? (w : World H) (i : Nat) : Option (Instance H) :=
  if w.isAlive i then w.instances[i]? else none

/-- Add notices. -/
def note (w : World H) (notices : List Notice) : World H :=
  { w with notices := w.notices ++ notices }

/-- Add notices about attributes, if the settings ask for them. -/
def report (w : World H) (problems : List AttrProblem) : World H :=
  if w.config.dev then w.note (problems.map .attribute) else w

/-! ## Queues -/

/-- Queue a job on the event loop. -/
def queue (w : World H) (runner : Runner) (job : Job H) : World H :=
  match runner with
  | .microtask => { w with microtasks := w.microtasks ++ [job] }
  | .task => { w with tasks := w.tasks ++ [job] }

/-- Ask for a flush of a run-queue, if a push has ended its emptiness. -/
def schedule (w : World H) (wasEmpty : Bool) (runner : Runner) (q : QueueId) : World H :=
  if wasEmpty then w.queue runner (.flush q) else w

/-- Put an instance into the render queue. -/
def pushRender (w : World H) (i : Nat) : World H :=
  let (wasEmpty, q) := w.renders.push i
  { w with renders := q }.schedule wasEmpty q.runner .renders

/-- Put an instance into the queues for its effects. -/
def pushEffects (w : World H) (i : Nat) : World H :=
  let (wasEmpty, q) := w.layout.push i
  let w := { w with layout := q }.schedule wasEmpty q.runner .layout
  let (wasEmpty, q) := w.passive.push i
  { w with passive := q }.schedule wasEmpty q.runner .passive

/-- Push a job onto a run-queue of the host. -/
def pushCustom (w : World H) (k : Nat) (job : Program H) : World H :=
  match w.custom[k]? with
  | none => w
  | some q =>
    let (wasEmpty, q) := q.push job
    { w with custom := w.custom.set k q }.schedule wasEmpty q.runner (.custom k)

/-! ## Requests -/

/-- Ask for a render of instance `i`, unless one has been asked for. -/
def update (w : World H) (i : Nat) : World H :=
  match w.instances[i]? with
  | none => w
  | some x => if x.dirty then w else (w.modify i ({ · with dirty := true })).pushRender i

/-- Start running a program on top of what is being done. -/
def start (w : World H) (p : Program H) (keep : Option Keep) : World H :=
  { w with stack := .program p keep :: w.stack }

/-- Start running programs, the first of them first. -/
def startAll (w : World H) (ps : List (Program H)) : World H :=
  { w with stack := ps.map (Activity.program · none) ++ w.stack }

/-- Carry out a request on instance `i`, which is `x`. -/
def request (w : World H) (i : Nat) (x : Instance H) : Request → World H
  | .connect =>
    if x.connected then w
    else
      let (attrs, problems) := x.element.fillMissing x.attrs
      ((w.modify i ({ · with connected := true, attrs })).report problems).update i
  | .disconnect =>
    if x.connected then
      let (cleanups, slots) := x.slots.takeCleanups
      (w.modify i ({ · with connected := false, slots })).startAll cleanups
    else w
  | .update => w.update i
  | .setAttribute name raw =>
    let (key, value, problems) := x.element.coerceAttr name raw
    let w := w.modify i fun x => { x with attrs := Keyed.insert x.attrs key value }
    let w := w.report problems
    if x.connected then w.update i else w
  | .setState name value =>
    (w.modify i fun x => { x with state := Keyed.insert x.state name value }).update i

/-- Call a setter or a dispatch function for a slot of instance `i`, which is `x`: start the program
for the value that is there. -/
def revise (w : World H) (i : Nat) (x : Instance H) (slot : Nat) (r : Revision (Program H)) :
    World H :=
  match Places.get? x.slots.values slot with
  | none => w
  | some current =>
    match r.program? current with
    | none => w
    | some p => w.start p (some (.change i slot current))

/-- Keep the value that a program has ended with, if it has. What takes the place of another value
is kept only if it differs from that one, and a render is asked for then. -/
def settle (w : World H) (v : Option SlotValue) : Keep → World H
  | .cleanup _ => w
  | .first i slot type => w.modify i fun x => { x with slots := x.slots.putFirst slot type v }
  | .change i slot current =>
    match v.filter current.differs with
    | none => w
    | some v => (w.modify i fun x => { x with slots := x.slots.setValue slot v }).update i

/-! ## Steps -/

/-- Start a job. -/
def startJob (w : World H) : Job H → World H
  | .program p => w.start p none
  | .flush q => { w with stack := .flush q :: w.stack }

/-- Start rendering instance `i`, which is `x`. -/
def startRender (w : World H) (i : Nat) (x : Instance H) (purpose : Purpose H) : World H :=
  { w with
    stack := .render i x.element.render (x.element.computed x.state) 0 purpose :: w.stack }

/-- Take the next microtask and start it. -/
def startMicrotask? (w : World H) : Option (World H) :=
  match w.microtasks with
  | [] => none
  | job :: microtasks => some ({ w with microtasks }.startJob job)

/-- Do one step of a program, which has been taken off the stack. -/
def stepProgram (w : World H) (keep : Option Keep) : Program H → World H
  | .done undo =>
    match undo, keep with
    | some undo, some (.cleanup k) =>
      w.modify k.owner fun x => { x with slots := x.slots.setCleanup k.slot undo }
    | _, some keep => w.settle none keep
    | _, none => w
  | .give v =>
    match keep with
    | none => w
    | some keep => w.settle (some v) keep
  | .peek next => w.start (next w.host) keep
  | .poke change next => { w with host := change w.host }.start next keep
  | .request i r next =>
    let w := w.start next keep
    match w.held? i with
    | none => w
    | some x => w.request i x r
  | .getField i name next =>
    let value := ((w.alive? i).bind fun x => Keyed.get? x.state name).getD .null
    w.start (next value) keep
  | .setField i name value next =>
    let w := w.start next keep
    match w.alive? i with
    | none => w
    | some x => w.request i x (.setState name value)
  | .revise i slot r next =>
    let w := w.start next keep
    match w.alive? i with
    | none => w
    | some x => w.revise i x slot r
  | .call i callback args next =>
    let w := w.start next keep
    match (w.instances[i]?).bind fun x => x.slots.callbacks[callback]? with
    | none => w
    | some body => w.start (body args) none
  | .queue runner job next => (w.queue runner (.program job)).start next keep
  | .push k job next => (w.pushCustom k job).start next keep
  | .drive .microtasks next => { w with stack := .checkpoint 0 next keep :: w.stack }
  | .drive .task next =>
    match w.tasks with
    | [] => w.start (next 0) keep
    | job :: tasks =>
      { w with tasks, stack := .checkpoint 0 (fun _ => next 1) keep :: w.stack }.startJob job
  | .drive .tasks next =>
    match w.tasks with
    | [] => w.start (next 0) keep
    | job :: tasks =>
      { w with
        tasks,
        stack := .checkpoint 0 (fun _ => .drive .tasks next) keep :: w.stack }.startJob job
  | .drive .untilIdle next =>
    { w with stack := .checkpoint 0 (fun _ => .drive .tasks next) keep :: w.stack }
  | .render i next =>
    match w.held? i with
    | none => w.start (next none) keep
    | some x => w.startRender i x (.query next keep)

/-- What is left of a render has come to a template with its values. -/
def finishRender (w : World H) (i : Nat) (result : TemplateResult) (purpose : Purpose H) :
    World H :=
  let markup := result.resolve w.config
  let w := w.modify i fun x => { x with renders := x.renders + 1 }
  match purpose with
  | .query next keep => w.start (next (some markup)) keep
  | .pass =>
    let w :=
      match markup with
      | .ok output => w.modify i ({ · with output })
      | .error e =>
        match w.instances[i]? with
        | some x => w.note [.renderFailed x.element.name e]
        | none => w
    (w.modify i ({ · with dirty := false })).pushEffects i

/-- Do one step of a render, which has been taken off the stack. -/
def stepRender (w : World H) (i : Nat) (computed : Keyed Json) (cursor : Nat)
    (purpose : Purpose H) : Render H → World H
  | .finish result => w.finishRender i result purpose
  | .peek next =>
    { w with stack := .render i (next w.host) computed cursor purpose :: w.stack }
  | .poke change next =>
    { w with host := change w.host, stack := .render i next computed cursor purpose :: w.stack }
  | .perform p next =>
    { w with stack := .program p none :: .render i next computed cursor purpose :: w.stack }
  | .hook h next =>
    match w.instances[i]? with
    | none => w
    | some x =>
      match x.slots.pending? cursor h with
      | some (type, init) =>
        -- the hook is called again when its first value is there
        { w with stack := .program init (some (.first i cursor type)) ::
          .render i (.hook h next) computed cursor purpose :: w.stack }
      | none =>
        let (a, s) := (⟨x.element.name, x.attrs, x.state, x.slots, computed, some i, cursor,
          w.host⟩ : RenderState H).answer h
        let w := { w with
          host := s.host
          stack := .render i (next a) computed s.cursor purpose :: w.stack }
        let w := w.modify i fun x => { x with attrs := s.attrs, state := s.state, slots := s.slots }
        match h with
        | .setState _ _ => w.update i
        | _ => w

/-- Start the effects of one kind of instance `i`, if it is connected. -/
def startEffects (w : World H) (kind : EffectKind) (i : Nat) : World H :=
  match w.instances[i]? with
  | none => w
  | some x =>
    if x.connected then
      let (effects, slots) := x.slots.takeEffects kind
      let w := w.modify i ({ · with slots })
      { w with stack := .effects i effects :: w.stack }
    else w

/-- Hand one item of a run-queue over, or be done with the queue; the flush has been taken off the
stack. -/
def stepFlush (w : World H) (q : QueueId) : World H :=
  let again : World H := { w with stack := .flush q :: w.stack }
  match q with
  | .renders =>
    match w.renders.pick with
    | none => w
    | some (i, renders) =>
      let w := { again with renders }
      match w.instances[i]? with
      | none => w
      | some x =>
        if x.connected then w.startRender i x .pass else w.modify i ({ · with dirty := false })
  | .layout =>
    match w.layout.pick with
    | none => w
    | some (i, layout) => { again with layout }.startEffects .layout i
  | .passive =>
    match w.passive.pick with
    | none => w
    | some (i, passive) => { again with passive }.startEffects .passive i
  | .custom k =>
    match (w.custom[k]?).bind RunQueue.pick with
    | none => w
    | some (job, q) => { again with custom := w.custom.set k q }.start job none

/-- Run the next effect of instance `i`, after the cleanup that is kept in its slot; the effects
have been taken off the stack. -/
def stepEffects (w : World H) (i : Nat) : List (Nat × Program H) → World H
  | [] => w
  | (slot, effect) :: rest =>
    let w := { w with
      stack := .program effect (some (.cleanup ⟨i, slot⟩)) :: .effects i rest :: w.stack }
    match w.instances[i]? with
    | none => w
    | some x =>
      let (cleanup, slots) := x.slots.takeCleanup slot
      (w.modify i ({ · with slots })).startAll cleanup.toList

/-- Do one step of what is being done; there is none when nothing is. -/
def step? (w : World H) : Option (World H) :=
  match w.stack with
  | [] => none
  | activity :: stack =>
    let w := { w with stack }
    some <|
      match activity with
      | .program p keep => w.stepProgram keep p
      | .checkpoint ran next keep =>
        match { w with stack := .checkpoint (ran + 1) next keep :: w.stack }.startMicrotask? with
        | some w => w
        | none => w.start (next ran) keep
      | .flush q => w.stepFlush q
      | .render i rest computed cursor purpose => w.stepRender i computed cursor purpose rest
      | .effects i rest => w.stepEffects i rest

/-- Do steps until nothing is being done, at most `fuel` of them. -/
def run (fuel : Nat) (w : World H) : World H :=
  match fuel with
  | 0 => w
  | fuel + 1 =>
    match w.step? with
    | none => w
    | some w => run fuel w

/-! ## The host -/

/-- Make a live element, which the host holds and which is not connected. -/
def create (w : World H) (e : Element H) : World H :=
  { w with instances := w.instances ++ [{ element := e, state := e.initialState }] }

/-- Let the host hold instance `i` no longer. -/
def drop (w : World H) (i : Nat) : World H := w.modify i ({ · with held := false })

/-- Nothing waits on the event loop. -/
def isIdle (w : World H) : Bool := w.microtasks.isEmpty && w.tasks.isEmpty

end World

end LiveMarkup
