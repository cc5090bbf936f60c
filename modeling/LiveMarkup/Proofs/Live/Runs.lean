import LiveMarkup.Live.World
import Mathlib.Logic.Relation

/-!
# Runs of live elements

A run goes from world to world by moves: a step of what is being done or, from outside, making an
element, letting go of one, or calling a program when nothing is being done. A program that is
called can do whatever the host, a callback or an effect can do: connect, disconnect, write, drive
the event loop.

What a step does is said once, by `Stepped`: it takes an activity off the stack or goes on with it,
and then makes elementary changes (`Change`), of which an instance becomes dirty in one only, the
request for a render.
-/

namespace LiveMarkup

variable {H : Type}

/-! ## Activities -/

/-- The activity of a job that is started. -/
def Job.activity : Job H → Activity H
  | .program p => .program p none
  | .flush q => .flush q

namespace Activity

/-- The activity is a pass of instance `i`. -/
def isPass (i : Nat) : Activity H → Bool
  | .render j _ _ _ .pass => i == j
  | _ => false

/-- The activity neither hands over a queue nor is a pass. -/
def isPlain : Activity H → Bool
  | .flush _ => false
  | .render _ _ _ _ .pass => false
  | _ => true

/-- The event loop itself is at work on the activity. -/
def isOfLoop : Activity H → Bool
  | .checkpoint .. | .flush _ | .render _ _ _ _ .pass | .effects .. => true
  | .program .. | .render _ _ _ _ (.query ..) => false

theorem not_isPass_of_isPlain {a : Activity H} (plain : a.isPlain = true) (i : Nat) :
    a.isPass i = false := by
  cases a with
  | render j rest computed cursor purpose =>
    cases purpose with
    | pass => cases plain
    | query next keep => rfl
  | _ => rfl

theorem ne_flush_of_isPlain {a : Activity H} (plain : a.isPlain = true) (q : QueueId) :
    a ≠ .flush q := by
  rintro rfl
  cases plain

theorem isOfLoop_of_isPass {a : Activity H} {i : Nat} (isPass : a.isPass i = true) :
    a.isOfLoop = true := by
  cases a with
  | render j rest computed cursor purpose =>
    cases purpose with
    | pass => rfl
    | query next keep => cases isPass
  | _ => cases isPass

end Activity

theorem Job.isPass_activity (job : Job H) (i : Nat) : job.activity.isPass i = false := by
  cases job with
  | program p => rfl
  | flush q => rfl

namespace World

/-- A pass of instance `i` is being made. -/
def inPass (w : World H) (i : Nat) : Bool := w.stack.any (Activity.isPass i)

/-- Instance `i` is there and connected. -/
def isConnected (w : World H) (i : Nat) : Bool := (w.instances[i]?).any (·.connected)

/-- Instance `i` is there and dirty. -/
def isDirty (w : World H) (i : Nat) : Bool := (w.instances[i]?).any (·.dirty)

/-- The event loop is idle: nothing waits on it and it is not at work. -/
def loopIdle (w : World H) : Bool := w.isIdle && !w.stack.any Activity.isOfLoop

end World

/-- A program has come to its end, with a value or without one. -/
inductive Program.Ends : Program H → Option SlotValue → Prop
  | done (undo : Option (Program H)) : Ends (.done undo) none
  | give (v : SlotValue) : Ends (.give v) (some v)

namespace World

/-! ## Moves -/

/-- A world in which nothing has happened; the host has some queues of its own. -/
def fresh (config : Config) (queues : List (Runner × DequeuePolicy)) (host : H) : World H :=
  { config, custom := queues.map fun q => ⟨q.1, q.2, []⟩, host }

/-- One move of a run. -/
inductive Next : World H → World H → Prop
  | step {w w' : World H} (step : w.step? = some w') : Next w w'
  | create (w : World H) (e : Element H) : Next w (w.create e)
  | drop (w : World H) (i : Nat) : Next w (w.drop i)
  | call {w : World H} (p : Program H) (rest : w.stack = []) : Next w (w.start p none)

/-- The worlds of all runs. -/
inductive Reachable : World H → Prop
  | fresh (config : Config) (queues : List (Runner × DequeuePolicy)) (host : H) :
    Reachable (fresh config queues host)
  | next {w w' : World H} (reached : Reachable w) (next : Next w w') : Reachable w'

/-- The first `n` moves of a run that goes on from a world of another one. -/
structure Run (ws : Nat → World H) (n : Nat) : Prop where
  start : Reachable (ws 0)
  next : ∀ k < n, Next (ws k) (ws (k + 1))

theorem Run.reachable {ws : Nat → World H} {n : Nat} (run : Run ws n) {k : Nat} (le : k ≤ n) :
    Reachable (ws k) := by
  induction k with
  | zero => exact run.start
  | succ k ih => exact .next (ih (Nat.le_of_succ_le le)) (run.next k le)

theorem Reachable.run {w : World H} (reached : Reachable w) (fuel : Nat) :
    Reachable (w.run fuel) := by
  induction fuel generalizing w with
  | zero => exact reached
  | succ fuel ih =>
    rw [World.run]
    cases stepped : w.step? with
    | none => exact reached
    | some w' => exact ih (.next reached (.step stepped))

theorem exists_step? {w : World H} (busy : w.stack ≠ []) : ∃ w', w.step? = some w' := by
  unfold step?
  cases top : w.stack with
  | nil => exact absurd top busy
  | cons activity stack => exact ⟨_, rfl⟩

theorem step?_run {w : World H} {k : Nat} (busy : (w.run k).stack ≠ []) :
    (w.run k).step? = some (w.run (k + 1)) := by
  induction k generalizing w with
  | zero =>
    obtain ⟨w', stepped⟩ := exists_step? (w := w) busy
    simp [World.run, stepped]
  | succ k ih =>
    rw [World.run] at busy ⊢
    rw [World.run]
    cases stepped : w.step? with
    | none =>
      rw [stepped] at busy
      obtain ⟨w', again⟩ := exists_step? (w := w) busy
      rw [stepped] at again
      cases again
    | some w' =>
      rw [stepped] at busy
      exact ih busy

/-- Steps that are made one after the other are a run. -/
theorem Reachable.runOn {w : World H} (reached : Reachable w) {n : Nat}
    (busy : ∀ k < n, (w.run k).stack ≠ []) : Run (w.run ·) n where
  start := reached.run 0
  next k lt := .step (step?_run (busy k lt))

/-! ## What a step does -/

/-- An elementary change: no instance becomes clean by it, and one becomes dirty only by the request
for a render. -/
inductive Change : World H → World H → Prop
  | modify (w : World H) (i : Nat) (change : Instance H → Instance H)
    (keeps : ∀ x, (change x).dirty = x.dirty) : Change w (w.modify i change)
  | create (w : World H) (e : Element H) : Change w (w.create e)
  | tell (w : World H) (notices : List Notice) (host : H) : Change w { w with notices, host }
  | start (w : World H) (a : Activity H) (plain : a.isPlain = true) :
    Change w { w with stack := a :: w.stack }
  | queue (w : World H) (runner : Runner) (p : Program H) : Change w (w.queue runner (.program p))
  | update (w : World H) (i : Nat) : Change w (w.update i)
  | pushEffects (w : World H) (i : Nat) : Change w (w.pushEffects i)
  | pushCustom (w : World H) (k : Nat) (p : Program H) : Change w (w.pushCustom k p)

abbrev Changes : World H → World H → Prop := Relation.ReflTransGen Change

/-- Instances that wait for a pass or are in one are there. -/
def Known (w : World H) : Prop :=
  ∀ i, i ∈ w.renders.items ∨ w.inPass i = true → ∃ x, w.instances[i]? = some x

/-- What a step does. -/
inductive Stepped (w : World H) : World H → Prop
  | plain {a : Activity H} {stack : List (Activity H)} {w' : World H}
    (top : w.stack = a :: stack) (isPlain : a.isPlain = true)
    (changes : Changes { w with stack } w') : Stepped w w'
  | microtask {ran : Nat} {next : Nat → Program H} {keep : Option Keep}
    {stack : List (Activity H)} {job : Job H} {microtasks : List (Job H)}
    (top : w.stack = .checkpoint ran next keep :: stack) (first : w.microtasks = job :: microtasks) :
    Stepped w { w with
      microtasks, stack := job.activity :: .checkpoint (ran + 1) next keep :: stack }
  | task {a : Activity H} {next : Nat → Program H} {keep : Option Keep}
    {stack : List (Activity H)} {job : Job H} {tasks : List (Job H)}
    (top : w.stack = a :: stack) (isPlain : a.isPlain = true) (first : w.tasks = job :: tasks) :
    Stepped w { w with tasks, stack := job.activity :: .checkpoint 0 next keep :: stack }
  | emptyRenders {stack : List (Activity H)} (top : w.stack = .flush .renders :: stack)
    (empty : w.renders.pick = none) : Stepped w { w with stack }
  | emptyLayout {stack : List (Activity H)} (top : w.stack = .flush .layout :: stack)
    (empty : w.layout.pick = none) : Stepped w { w with stack }
  | emptyPassive {stack : List (Activity H)} (top : w.stack = .flush .passive :: stack)
    (empty : w.passive.pick = none) : Stepped w { w with stack }
  | emptyCustom {k : Nat} {stack : List (Activity H)} (top : w.stack = .flush (.custom k) :: stack)
    (empty : (w.custom[k]?).bind RunQueue.pick = none) : Stepped w { w with stack }
  | skip {i : Nat} {x : Instance H} {renders : RunQueue Nat} {stack : List (Activity H)}
    (top : w.stack = .flush .renders :: stack) (pick : w.renders.pick = some (i, renders))
    (found : w.instances[i]? = some x) (gone : x.connected = false) :
    Stepped w ({ w with renders }.modify i ({ · with dirty := false }))
  | pass {i : Nat} {x : Instance H} {renders : RunQueue Nat} {stack : List (Activity H)}
    (top : w.stack = .flush .renders :: stack) (pick : w.renders.pick = some (i, renders))
    (found : w.instances[i]? = some x) (here : x.connected = true) :
    Stepped w ({ w with renders }.startRender i x .pass)
  | layout {i : Nat} {layout : RunQueue Nat} {stack : List (Activity H)} {w' : World H}
    (top : w.stack = .flush .layout :: stack) (pick : w.layout.pick = some (i, layout))
    (changes : Changes { w with layout } w') : Stepped w w'
  | passive {i : Nat} {passive : RunQueue Nat} {stack : List (Activity H)} {w' : World H}
    (top : w.stack = .flush .passive :: stack) (pick : w.passive.pick = some (i, passive))
    (changes : Changes { w with passive } w') : Stepped w w'
  | custom {k : Nat} {p : Program H} {queue queue' : RunQueue (Program H)}
    {stack : List (Activity H)} {w' : World H} (top : w.stack = .flush (.custom k) :: stack)
    (found : w.custom[k]? = some queue) (pick : queue.pick = some (p, queue'))
    (changes : Changes { w with custom := w.custom.set k queue' } w') : Stepped w w'
  | render {i cursor cursor' : Nat} {rest rest' : Render H} {computed : Keyed Json}
    {stack : List (Activity H)} {w' : World H}
    (top : w.stack = .render i rest computed cursor .pass :: stack)
    (changes : Changes
      { w with stack := .render i rest' computed cursor' .pass :: stack } w') : Stepped w w'
  | finish {i cursor : Nat} {result : TemplateResult} {computed : Keyed Json}
    {stack : List (Activity H)} {w' : World H}
    (top : w.stack = .render i (.finish result) computed cursor .pass :: stack)
    (changes : Changes { w with stack } w') :
    Stepped w ((w'.modify i ({ · with dirty := false })).pushEffects i)

/-! ### What a call finds -/

section Found

variable {w : World H} {i : Nat} {x : Instance H} {p next : Program H} {keep : Option Keep}
  {stack : List (Activity H)}

theorem found_of_held (held : w.held? i = some x) : w.instances[i]? = some x :=
  (Option.filter_eq_some_iff.mp held).1

theorem found_of_alive (alive : w.alive? i = some x) : w.instances[i]? = some x := by
  unfold alive? at alive
  split at alive
  · exact alive
  · cases alive

theorem step?_program (top : w.stack = .program p keep :: stack) :
    w.step? = some ({ w with stack }.stepProgram keep p) := by
  rw [step?, top]

/-- What a program calls is as much alive when the call is made as before. -/
theorem alive?_start (top : w.stack = .program p keep :: stack) :
    ({ w with stack }.start next keep).alive? i = w.alive? i := by
  simp [alive?, isAlive, held?, start, top, mentions]

/-- What is kept of a program is settled when it ends. -/
theorem step?_ends {kept : Keep} {v : Option SlotValue}
    (top : w.stack = .program p (some kept) :: stack) (ends : p.Ends v)
    (value : kept.cleanup? = none) : w.step? = some ({ w with stack }.settle v kept) := by
  rw [step?_program top]
  cases ends with
  | give v => rfl
  | done undo =>
    cases kept with
    | cleanup k => cases value
    | first i slot type => cases undo with
      | _ => rfl
    | change i slot current => cases undo with
      | _ => rfl

end Found

/-! ### Parts of steps -/

section Parts

variable (w : World H) (i : Nat) (x : Instance H)

theorem startJob_eq (job : Job H) :
    w.startJob job = { w with stack := job.activity :: w.stack } := by
  cases job with
  | program p => rfl
  | flush q => rfl

theorem startMicrotask?_nil {w : World H} (empty : w.microtasks = []) :
    w.startMicrotask? = none := by
  rw [startMicrotask?, empty]

theorem startMicrotask?_cons {w : World H} {job : Job H} {microtasks : List (Job H)}
    (first : w.microtasks = job :: microtasks) :
    w.startMicrotask? = some { w with microtasks, stack := job.activity :: w.stack } := by
  rw [startMicrotask?, first]
  simp only [startJob_eq]

theorem change_start (p : Program H) (keep : Option Keep) : Change w (w.start p keep) :=
  .start w _ rfl

theorem changes_report (problems : List AttrProblem) : Changes w (w.report problems) := by
  unfold report
  split
  · exact .single (.tell w _ w.host)
  · exact .refl

theorem changes_startAll (ps : List (Program H)) : Changes w (w.startAll ps) := by
  induction ps with
  | nil => exact .refl
  | cons p ps ih => exact ih.tail (.start (w.startAll ps) _ rfl)

theorem changes_request (r : Request) : Changes w (w.request i x r) := by
  cases r with
  | connect =>
    simp only [request]
    split
    · exact .refl
    · exact (Relation.ReflTransGen.single (.modify w i _ fun _ => rfl)).trans
        ((changes_report _ _).tail (.update _ i))
  | disconnect =>
    simp only [request]
    split
    · exact (Relation.ReflTransGen.single (.modify w i _ fun _ => rfl)).trans
        (changes_startAll _ _)
    · exact .refl
  | update => exact .single (.update w i)
  | setAttribute name raw =>
    simp only [request]
    have written := (Relation.ReflTransGen.single (.modify w i
      (fun x' => { x' with
        attrs := Keyed.insert x'.attrs (x.element.coerceAttr name raw).1
          (x.element.coerceAttr name raw).2.1 }) fun _ => rfl)).trans
      (changes_report _ (x.element.coerceAttr name raw).2.2)
    split
    · exact written.tail (.update _ i)
    · exact written
  | setState name value =>
    exact (Relation.ReflTransGen.single (.modify w i _ fun _ => rfl)).tail (.update _ i)

theorem changes_revise (slot : Nat) (r : Revision (Program H)) :
    Changes w (w.revise i x slot r) := by
  unfold revise
  split
  · exact .refl
  · split
    · exact .refl
    · exact .single (change_start _ _ _)

theorem changes_settle (v : Option SlotValue) (keep : Keep) : Changes w (w.settle v keep) := by
  cases keep with
  | cleanup k => exact .refl
  | first i slot type => exact .single (.modify _ _ _ fun _ => rfl)
  | change i slot current =>
    simp only [settle]
    split
    · exact .refl
    · exact (Relation.ReflTransGen.single (.modify _ _ _ fun _ => rfl)).tail (.update _ i)

theorem changes_startEffects (kind : EffectKind) : Changes w (w.startEffects kind i) := by
  unfold startEffects
  split
  · exact .refl
  · split
    · exact (Relation.ReflTransGen.single (.modify w i _ fun _ => rfl)).tail (.start _ _ rfl)
    · exact .refl

theorem changes_stepEffects (effects : List (Nat × Program H)) :
    Changes w (w.stepEffects i effects) := by
  cases effects with
  | nil => exact .refl
  | cons effect rest =>
    obtain ⟨slot, effect⟩ := effect
    simp only [stepEffects]
    have begun : Changes w
        { w with
          stack := .program effect (some (.cleanup ⟨i, slot⟩)) :: .effects i rest :: w.stack } :=
      (Relation.ReflTransGen.single (.start w (.effects i rest) rfl)).tail
        (.start _ (.program effect (some (.cleanup ⟨i, slot⟩))) rfl)
    split
    · exact begun
    · refine (begun.tail ?_).trans (changes_startAll _ _)
      exact .modify _ i _ fun _ => rfl

end Parts

/-! ### Steps by activity -/

section Step

variable {w w' : World H} {stack : List (Activity H)}

/-- A program calls; or it takes a task, which is then at work under a checkpoint. -/
theorem stepped_program {p : Program H} {keep : Option Keep}
    (top : w.stack = .program p keep :: stack) :
    Stepped w ({ w with stack }.stepProgram keep p) := by
  have begun (q : Program H) : Changes { w with stack } ({ w with stack }.start q keep) :=
    .single (change_start _ q keep)
  have task {next : Nat → Program H} {job : Job H} {tasks : List (Job H)}
      (first : w.tasks = job :: tasks) :
      Stepped w ({ w with tasks, stack := .checkpoint 0 next keep :: stack }.startJob job) := by
    rw [startJob_eq]
    exact .task top rfl first
  cases p with
  | done undo =>
    refine .plain top rfl ?_
    simp only [stepProgram]
    split
    · exact .single (.modify _ _ _ fun _ => rfl)
    · exact changes_settle _ _ _
    · exact .refl
  | give v =>
    refine .plain top rfl ?_
    simp only [stepProgram]
    split
    · exact .refl
    · exact changes_settle _ _ _
  | peek next => exact .plain top rfl (begun _)
  | poke change next =>
    exact .plain top rfl ((Relation.ReflTransGen.single (.tell { w with stack } w.notices _)).tail
      (change_start _ next keep))
  | request i r next =>
    refine .plain top rfl ?_
    simp only [stepProgram]
    split
    · exact begun next
    · exact (begun next).trans (changes_request _ _ _ _)
  | getField i name next => exact .plain top rfl (begun _)
  | setField i name value next =>
    refine .plain top rfl ?_
    simp only [stepProgram]
    split
    · exact begun next
    · exact (begun next).trans (changes_request _ _ _ _)
  | revise i slot r next =>
    refine .plain top rfl ?_
    simp only [stepProgram]
    split
    · exact begun next
    · exact (begun next).trans (changes_revise _ _ _ _ _)
  | call i callback args next =>
    refine .plain top rfl ?_
    simp only [stepProgram]
    split
    · exact begun next
    · exact (begun next).tail (change_start _ _ _)
  | queue runner job next =>
    exact .plain top rfl ((Relation.ReflTransGen.single (.queue _ runner job)).tail
      (change_start _ next keep))
  | push k job next =>
    exact .plain top rfl ((Relation.ReflTransGen.single (.pushCustom _ k job)).tail
      (change_start _ next keep))
  | drive d next =>
    cases d with
    | microtasks => exact .plain top rfl (.single (.start _ _ rfl))
    | untilIdle => exact .plain top rfl (.single (.start _ _ rfl))
    | task =>
      simp only [stepProgram]
      split
      · exact .plain top rfl (begun _)
      · next first => exact task first
    | tasks =>
      simp only [stepProgram]
      split
      · exact .plain top rfl (begun _)
      · next first => exact task first
  | render i next =>
    refine .plain top rfl ?_
    simp only [stepProgram]
    split
    · exact begun _
    · exact .single (.start _ _ rfl)

/-- A flush is over when its queue is empty, or takes the next item. -/
theorem stepped_flush (known : w.Known) {q : QueueId} (top : w.stack = .flush q :: stack) :
    Stepped w ({ w with stack }.stepFlush q) := by
  cases q with
  | renders =>
    simp only [stepFlush]
    split
    · next empty => exact .emptyRenders top empty
    · next i renders pick =>
      have waits : i ∈ w.renders.items :=
        (RunQueue.perm_of_pick pick).mem_iff.mpr List.mem_cons_self
      obtain ⟨x, found⟩ := known i (.inl waits)
      simp only [found, ← top]
      split
      · next here => exact .pass top pick found here
      · next gone => exact .skip top pick found (Bool.eq_false_iff.mpr gone)
  | layout =>
    simp only [stepFlush]
    split
    · next empty => exact .emptyLayout top empty
    · next i layout pick =>
      rw [← top]
      exact .layout top pick (changes_startEffects _ _ _)
  | passive =>
    simp only [stepFlush]
    split
    · next empty => exact .emptyPassive top empty
    · next i passive pick =>
      rw [← top]
      exact .passive top pick (changes_startEffects _ _ _)
  | custom k =>
    simp only [stepFlush]
    split
    · next empty => exact .emptyCustom top empty
    · next p queue' pick =>
      obtain ⟨queue, found, pick⟩ := Option.bind_eq_some_iff.mp pick
      rw [← top]
      exact .custom top found pick (.single (change_start _ p none))

section Render

variable {i cursor cursor' : Nat} {rest rest' : Render H} {computed : Keyed Json}
  {purpose : Purpose H}

/-- A render goes on. -/
theorem stepped_resume (top : w.stack = .render i rest computed cursor purpose :: stack)
    (changes : Changes
      { w with stack := .render i rest' computed cursor' purpose :: stack } w') :
    Stepped w w' := by
  cases purpose with
  | pass => exact .render top changes
  | query next keep => exact .plain top rfl (changes.head (.start { w with stack } _ rfl))

theorem stepped_finish {result : TemplateResult}
    (top : w.stack = .render i (.finish result) computed cursor purpose :: stack) :
    Stepped w ({ w with stack }.finishRender i result purpose) := by
  have counted : Changes { w with stack }
      ({ w with stack }.modify i fun x => { x with renders := x.renders + 1 }) :=
    .single (.modify _ i _ fun _ => rfl)
  cases purpose with
  | pass =>
    simp only [finishRender]
    refine .finish top (counted.trans ?_)
    split
    · exact .single (.modify _ i _ fun _ => rfl)
    · split
      · exact .single (.tell _ _ w.host)
      · exact .refl
  | query next keep => exact .plain top rfl (counted.tail (change_start _ _ keep))

theorem stepped_render (known : w.Known)
    (top : w.stack = .render i rest computed cursor purpose :: stack) :
    Stepped w ({ w with stack }.stepRender i computed cursor purpose rest) := by
  cases rest with
  | finish result => exact stepped_finish top
  | peek next => exact stepped_resume top .refl
  | poke change next => exact stepped_resume top (.single (.tell _ w.notices _))
  | perform p next => exact stepped_resume top (.single (.start _ _ rfl))
  | hook h next =>
    simp only [stepRender]
    split
    · next lost =>
      cases purpose with
      | pass =>
        have waits : w.inPass i = true := by simp [inPass, top, Activity.isPass]
        obtain ⟨x, found⟩ := known i (.inr waits)
        rw [found] at lost
        cases lost
      | query next keep => exact .plain top rfl .refl
    · next x found =>
      have told (rest' : Render H) (cursor' : Nat) (host : H) (change : Instance H → Instance H)
          (keeps : ∀ x, (change x).dirty = x.dirty) :
          Changes { w with stack := .render i rest' computed cursor' purpose :: stack }
            ({ w with
              stack := .render i rest' computed cursor' purpose :: stack, host }.modify i change) :=
        (Relation.ReflTransGen.single (.tell _ w.notices host)).tail (.modify _ i change keeps)
      split
      · exact stepped_resume top (.single (change_start _ _ _))
      · split
        · refine stepped_resume top ((told _ _ _ _ ?_).tail (.update _ i))
          exact fun _ => rfl
        · refine stepped_resume top (told _ _ _ _ ?_)
          exact fun _ => rfl

end Render

theorem stepped (known : w.Known) (step : w.step? = some w') : Stepped w w' := by
  unfold step? at step
  split at step
  · cases step
  · next activity stack top =>
    simp only [Option.some.injEq] at step
    subst step
    cases activity with
    | program p keep => exact stepped_program top
    | checkpoint ran next keep =>
      let counting : World H := { w with stack := .checkpoint (ran + 1) next keep :: stack }
      by_cases empty : w.microtasks = []
      · have ended : counting.startMicrotask? = none := startMicrotask?_nil empty
        simp only [counting, ended]
        exact .plain top rfl (.single (change_start { w with stack } _ keep))
      · obtain ⟨job, microtasks, first⟩ := List.exists_cons_of_ne_nil empty
        have begun := startMicrotask?_cons (w := counting) first
        simp only [counting, begun]
        exact .microtask top first
    | flush q => exact stepped_flush known top
    | render i rest computed cursor purpose => exact stepped_render known top
    | effects i rest => exact .plain top rfl (changes_stepEffects _ _ _)

end Step

end World

end LiveMarkup
