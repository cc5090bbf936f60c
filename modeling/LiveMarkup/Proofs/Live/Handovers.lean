import LiveMarkup.Proofs.Live.Histories
import LiveMarkup.Proofs.Live.Updates

/-!
# What goes through run-queues

A render is asked for by a call on an element, through a handle, or by the element itself; a pass
that ends asks for the effects of its element; and the host pushes jobs onto queues of its own. A
flush hands over what has been pushed. Whatever the world is doing, nothing else happens to a
run-queue (`queued`), so that each queue has a history in every run: nothing is lost or handed over
twice, and nothing is left over when no flush is at work and none is to come.
-/

namespace LiveMarkup

variable {H : Type}

/-- What waits in a run-queue: an element, or a job of the host. -/
inductive Item (H : Type) where
  | element (i : Nat)
  | job (p : Program H)

/-- The request comes to asking for a render, of an element that is connected or not. -/
def Request.asks (connected : Bool) : Request → Bool
  | .connect => !connected
  | .disconnect => false
  | .update => true
  | .setAttribute _ _ => connected
  | .setState _ _ => true

namespace RunQueue

variable {α β : Type}

/-- The queue with something else in place of each item. -/
def map (f : α → β) (q : RunQueue α) : RunQueue β := ⟨q.runner, q.policy, q.items.map f⟩

theorem push_map (f : α → β) (q : RunQueue α) (a : α) :
    ((q.map f).push (f a)).2 = (q.push a).2.map f := by
  simp only [push, map, List.map_append, List.map_cons, List.map_nil]

theorem pick_map (f : α → β) (q : RunQueue α) :
    (q.map f).pick = q.pick.map fun r => (f r.1, r.2.map f) := by
  unfold pick map
  cases q.policy with
  | fifo =>
    cases q.items with
    | nil => rfl
    | cons a items => rfl
  | filo =>
    simp only [List.getLast?_map]
    cases q.items.getLast? with
    | none => rfl
    | some a => simp only [Option.map_some, List.map_dropLast]

theorem pick_map_some {q q' : RunQueue α} {a : α} (f : α → β) (pick : q.pick = some (a, q')) :
    (q.map f).pick = some (f a, q'.map f) := by
  rw [pick_map, pick]
  rfl

end RunQueue

namespace World

variable {w w' v : World H} {q : QueueId} {a : Item H} {i : Nat} {x : Instance H}

/-- A run-queue of the world. -/
def runQueue? (w : World H) : QueueId → Option (RunQueue (Item H))
  | .renders => some (w.renders.map .element)
  | .layout => some (w.layout.map .element)
  | .passive => some (w.passive.map .element)
  | .custom k => (w.custom[k]?).map (RunQueue.map .job)

theorem pending_iff : w.Pending q ↔ ∃ queue, w.runQueue? q = some queue ∧ queue.items ≠ [] := by
  cases q with
  | custom k =>
    refine ⟨fun ⟨queue, found, nonempty⟩ => ⟨queue.map .job, ?_, ?_⟩,
      fun ⟨mapped, found, nonempty⟩ => ?_⟩
    · rw [runQueue?, found]
      rfl
    · simpa [RunQueue.map] using nonempty
    · obtain ⟨queue, there, rfl⟩ := Option.map_eq_some_iff.mp found
      exact ⟨queue, there, by simpa [RunQueue.map] using nonempty⟩
  | _ => simp [Pending, runQueue?, RunQueue.map]

/-! ## Pushes and hand-overs -/

/-- A render of instance `i` is asked for. -/
inductive Asks (i : Nat) (w w' : World H) : Prop
  | request {r : Request} {next : Program H} {keep : Option Keep}
    {stack : List (Activity H)} {x : Instance H}
    (top : w.stack = .program (.request i r next) keep :: stack) (held : w.held? i = some x)
    (asks : r.asks x.connected = true) (step : w.step? = some w')
  /-- Through a state handle. -/
  | setField {name : Text} {value : Json} {next : Program H} {keep : Option Keep}
    {stack : List (Activity H)} {x : Instance H}
    (top : w.stack = .program (.setField i name value next) keep :: stack)
    (alive : w.alive? i = some x) (step : w.step? = some w')
  /-- What a setter or a dispatch function has come to makes a difference. -/
  | change {slot : Nat} {current v : SlotValue} {stack : List (Activity H)} {x : Instance H}
    (top : w.stack = .program (.give v) (some (.change i slot current)) :: stack)
    (found : w.instances[i]? = some x) (differs : current.differs v = true)
    (step : w.step? = some w')
  /-- In its own render function. -/
  | hook {name : Text} {value : Json} {next : Unit → Render H} {computed : Keyed Json}
    {cursor : Nat} {purpose : Purpose H} {stack : List (Activity H)} {x : Instance H}
    (top : w.stack = .render i (.hook (.setState name value) next) computed cursor purpose :: stack)
    (found : w.instances[i]? = some x) (step : w.step? = some w')

/-- The queue for effects of one kind. -/
def effectQueue : EffectKind → QueueId
  | .layout => .layout
  | .passive => .passive

/-- A move pushes an item onto a run-queue. -/
inductive Pushes : QueueId → Item H → World H → World H → Prop
  /-- A render is asked for of an element that is clean. -/
  | render {i : Nat} {w w' : World H} (asks : Asks i w w') (clean : w.isDirty i = false) :
    Pushes .renders (.element i) w w'
  /-- A pass comes to its end. -/
  | effects {i cursor : Nat} {result : TemplateResult} {computed : Keyed Json}
    {stack : List (Activity H)} {w w' : World H} (kind : EffectKind)
    (top : w.stack = .render i (.finish result) computed cursor .pass :: stack)
    (step : w.step? = some w') : Pushes (effectQueue kind) (.element i) w w'
  | job {k : Nat} {p next : Program H} {keep : Option Keep} {stack : List (Activity H)}
    {queue : RunQueue (Program H)} {w w' : World H}
    (top : w.stack = .program (.push k p next) keep :: stack) (found : w.custom[k]? = some queue)
    (step : w.step? = some w') : Pushes (.custom k) (.job p) w w'

/-- A flush hands an item over. -/
inductive Hands (q : QueueId) (a : Item H) (w w' : World H) : Prop
  | intro {stack : List (Activity H)} {queue queue' : RunQueue (Item H)}
    (top : w.stack = .flush q :: stack) (found : w.runQueue? q = some queue)
    (pick : queue.pick = some (a, queue')) (step : w.step? = some w')

/-! ### What leaves the run-queues alone -/

/-- Nothing happens to the run-queues. -/
def SameQueues (w w' : World H) : Prop := ∀ q, w'.runQueue? q = w.runQueue? q

theorem SameQueues.refl (w : World H) : SameQueues w w := fun _ => rfl

theorem SameQueues.trans (first : SameQueues w v) (second : SameQueues v w') : SameQueues w w' :=
  fun q => (second q).trans (first q)

/-- Nothing happens to the elements either. -/
structure Undisturbed (w w' : World H) : Prop where
  instances : w'.instances = w.instances
  renders : w'.renders = w.renders
  layout : w'.layout = w.layout
  passive : w'.passive = w.passive
  custom : w'.custom = w.custom

theorem Undisturbed.sameQueues (same : Undisturbed w w') : SameQueues w w' := by
  intro q
  cases q with
  | renders => rw [runQueue?, same.renders]; rfl
  | layout => rw [runQueue?, same.layout]; rfl
  | passive => rw [runQueue?, same.passive]; rfl
  | custom k => rw [runQueue?, same.custom]; rfl

theorem undisturbed_queue (w : World H) (runner : Runner) (job : Job H) :
    Undisturbed w (w.queue runner job) := by
  cases runner with
  | microtask => exact ⟨rfl, rfl, rfl, rfl, rfl⟩
  | task => exact ⟨rfl, rfl, rfl, rfl, rfl⟩

theorem sameQueues_modify (w : World H) (i : Nat) (change : Instance H → Instance H) :
    SameQueues w (w.modify i change) := fun _ => rfl

theorem sameQueues_schedule (w : World H) (wasEmpty : Bool) (runner : Runner) (q : QueueId) :
    SameQueues w (w.schedule wasEmpty runner q) := by
  unfold schedule
  split
  · exact (undisturbed_queue _ _ _).sameQueues
  · exact .refl w

theorem sameQueues_report (w : World H) (problems : List AttrProblem) :
    SameQueues w (w.report problems) := by
  unfold report
  split
  · exact fun _ => rfl
  · exact .refl w

/-! ### Pushes -/

/-- A run-queue in which `a` has been put. -/
def withItem (w : World H) (q : QueueId) (a : Item H) : Option (RunQueue (Item H)) :=
  (w.runQueue? q).map fun queue => (queue.push a).2

theorem runQueue?_pushRender (w : World H) (i : Nat) (q : QueueId) :
    (w.pushRender i).runQueue? q =
      if q = .renders then w.withItem q (.element i) else w.runQueue? q := by
  refine (sameQueues_schedule _ _ _ _ q).trans ?_
  cases q with
  | renders => exact congrArg some (RunQueue.push_map Item.element w.renders i).symm
  | _ => rfl

/-- Whether instance `i` is dirty, if it is there. -/
def dirty? (w : World H) (i : Nat) : Option Bool := (w.instances[i]?).map (·.dirty)

theorem dirty?_of_found (found : w.instances[i]? = some x) : w.dirty? i = some x.dirty := by
  rw [dirty?, found]
  rfl

theorem runQueue?_update {dirty : Bool} (there : w.dirty? i = some dirty) :
    (w.update i).runQueue? q =
      if q = .renders ∧ dirty = false then w.withItem q (.element i) else w.runQueue? q := by
  obtain ⟨x, found, rfl⟩ := Option.map_eq_some_iff.mp there
  simp only [update, found]
  split
  · next dirty => rw [if_neg fun clean => absurd dirty (Bool.eq_false_iff.mp clean.2)]
  · next clean =>
    simp only [runQueue?_pushRender, Bool.eq_false_iff.mpr clean, and_true]
    rfl

theorem runQueue?_pushEffects (w : World H) (i : Nat) (q : QueueId) :
    (w.pushEffects i).runQueue? q =
      if q = .layout ∨ q = .passive then w.withItem q (.element i) else w.runQueue? q := by
  have layout : SameQueues { w with layout := (w.layout.push i).2 }
      ({ w with layout := (w.layout.push i).2 }.schedule (w.layout.push i).1
        (w.layout.push i).2.runner .layout) := sameQueues_schedule _ _ _ _
  refine (sameQueues_schedule _ _ _ _ q).trans ?_
  cases q with
  | renders => exact layout .renders
  | layout =>
    refine (layout .layout).trans ?_
    exact congrArg some (RunQueue.push_map Item.element w.layout i).symm
  | passive =>
    refine (congrArg some (RunQueue.push_map Item.element _ i).symm).trans ?_
    exact congrArg (Option.map fun queue => (queue.push (.element i)).2) (layout .passive)
  | custom k => exact layout (.custom k)

theorem runQueue?_pushCustom {k : Nat} {queue : RunQueue (Program H)} (p : Program H)
    (found : w.custom[k]? = some queue) :
    (w.pushCustom k p).runQueue? q =
      if q = .custom k then w.withItem q (.job p) else w.runQueue? q := by
  simp only [pushCustom, found]
  refine (sameQueues_schedule _ _ _ _ q).trans ?_
  cases q with
  | custom l =>
    by_cases same : l = k
    · subst same
      have lt : l < w.custom.length := (List.getElem?_eq_some_iff.mp found).1
      rw [if_pos rfl, runQueue?, List.getElem?_set_self lt, withItem, runQueue?, found]
      exact congrArg some (RunQueue.push_map Item.job queue p).symm
    · rw [if_neg fun eq => same (QueueId.custom.inj eq), runQueue?, runQueue?,
        List.getElem?_set_ne (Ne.symm same)]
  | _ => rfl

/-! ### Requests for renders -/

theorem dirty?_modify {change : Instance H → Instance H} (found : w.instances[i]? = some x)
    (keeps : (change x).dirty = x.dirty) : (w.modify i change).dirty? i = some x.dirty := by
  rw [dirty?_of_found (found_modify found change), keeps]

theorem dirty?_report (w : World H) (problems : List AttrProblem) :
    (w.report problems).dirty? i = w.dirty? i := by
  unfold report
  split
  · rfl
  · rfl

section Request

variable {p next : Program H} {keep : Option Keep} {stack : List (Activity H)}

/-- A request that asks for a render comes down to an update. -/
theorem exists_update_request (found : w.instances[i]? = some x) {r : Request}
    (asks : r.asks x.connected = true) :
    ∃ v, w.request i x r = v.update i ∧ v.dirty? i = some x.dirty ∧ SameQueues w v := by
  cases r with
  | connect =>
    have gone : ¬ x.connected = true := by simpa [Request.asks] using asks
    simp only [request, if_neg gone]
    refine ⟨_, rfl, ?_, (sameQueues_modify w i _).trans (sameQueues_report _ _)⟩
    rw [dirty?_report]
    exact dirty?_modify found rfl
  | disconnect => cases asks
  | update => exact ⟨w, rfl, dirty?_of_found found, .refl w⟩
  | setAttribute name raw =>
    have here : x.connected = true := asks
    simp only [request, if_pos here]
    refine ⟨_, rfl, ?_, (sameQueues_modify w i _).trans (sameQueues_report _ _)⟩
    rw [dirty?_report]
    exact dirty?_modify found rfl
  | setState name value =>
    exact ⟨_, rfl, dirty?_modify found rfl, sameQueues_modify w i _⟩

/-- What asks for a render comes down to an update of an element that is as clean as before. -/
theorem Asks.exists_update (asks : Asks i w w') :
    ∃ v, w' = v.update i ∧ v.dirty? i = some (w.isDirty i) ∧ SameQueues w v := by
  have dirty {x : Instance H} (found : w.instances[i]? = some x) : w.isDirty i = x.dirty := by
    simp [isDirty, found]
  cases asks with
  | @request r next keep stack x top held asks step =>
    have found := found_of_held held
    have still : ({ w with stack }.start next keep).held? i = some x := held
    have there : ({ w with stack }.start next keep).instances[i]? = some x := found
    simp only [step?_program top, stepProgram, still, Option.some.injEq] at step
    subst step
    rw [dirty found]
    exact exists_update_request there asks
  | @setField name value next keep stack x top alive step =>
    have found := found_of_alive alive
    have there : ({ w with stack }.start next keep).instances[i]? = some x := found
    simp only [step?_program top, stepProgram, alive?_start top, alive, Option.some.injEq] at step
    subst step
    rw [dirty found]
    exact exists_update_request there rfl
  | @change slot current v stack x top found differs step =>
    rw [step?_ends top (.give v) rfl, Option.some.injEq] at step
    subst step
    simp only [settle, Option.filter, differs, if_true]
    rw [dirty found]
    refine ⟨_, rfl, ?_, fun _ => rfl⟩
    refine dirty?_modify (x := x) ?_ rfl
    exact found
  | @hook name value next computed cursor purpose stack x top found step =>
    simp only [step?, top, stepRender, found, Option.some.injEq] at step
    subst step
    rw [dirty found]
    refine ⟨_, rfl, ?_, fun _ => rfl⟩
    refine dirty?_modify (x := x) ?_ rfl
    exact found

theorem Asks.runQueue? (asks : Asks i w w') :
    w'.runQueue? q =
      if q = .renders ∧ w.isDirty i = false then w.withItem q (.element i) else w.runQueue? q := by
  obtain ⟨v, rfl, dirty, same⟩ := asks.exists_update
  rw [runQueue?_update dirty, withItem, withItem, same q]

end Request

/-! ### Ends of passes -/

theorem runQueue?_finishRender (w : World H) (i : Nat) (result : TemplateResult) :
    (w.finishRender i result .pass).runQueue? q =
      if q = .layout ∨ q = .passive then w.withItem q (.element i) else w.runQueue? q := by
  have ended {v : World H} (same : SameQueues w v) :
      ((v.modify i ({ · with dirty := false })).pushEffects i).runQueue? q =
        if q = .layout ∨ q = .passive then w.withItem q (.element i) else w.runQueue? q := by
    rw [runQueue?_pushEffects, withItem, withItem, ← same q]
    rfl
  simp only [finishRender]
  split
  · exact ended fun _ => rfl
  · split
    · exact ended fun _ => rfl
    · exact ended fun _ => rfl

/-! ### Hand-overs -/

theorem sameQueues_startEffects (w : World H) (kind : EffectKind) (i : Nat) :
    SameQueues w (w.startEffects kind i) := by
  unfold startEffects
  split
  · exact .refl w
  · split
    · exact fun _ => rfl
    · exact .refl w

/-- A flush with nothing to hand over leaves the queues alone. -/
theorem sameQueues_stepFlush (empty : (w.runQueue? q).bind RunQueue.pick = none) :
    SameQueues w (w.stepFlush q) := by
  cases q with
  | renders =>
    have none_left : w.renders.pick = none := by
      simpa [runQueue?, RunQueue.pick_map] using empty
    simp only [stepFlush, none_left]
    exact .refl w
  | layout =>
    have none_left : w.layout.pick = none := by
      simpa [runQueue?, RunQueue.pick_map] using empty
    simp only [stepFlush, none_left]
    exact .refl w
  | passive =>
    have none_left : w.passive.pick = none := by
      simpa [runQueue?, RunQueue.pick_map] using empty
    simp only [stepFlush, none_left]
    exact .refl w
  | custom k =>
    have none_left : (w.custom[k]?).bind RunQueue.pick = none := by
      cases found : w.custom[k]? with
      | none => rfl
      | some queue => simpa [runQueue?, found, RunQueue.pick_map] using empty
    simp only [stepFlush, none_left]
    exact .refl w

/-- A flush takes the item that comes next out of its queue, and leaves the others alone. -/
theorem runQueue?_stepFlush {queue queue' : RunQueue (Item H)}
    (known : ∀ i ∈ w.renders.items, ∃ x, w.instances[i]? = some x)
    (found : w.runQueue? q = some queue) (pick : queue.pick = some (a, queue')) (q' : QueueId) :
    (w.stepFlush q).runQueue? q' = if q' = q then some queue' else w.runQueue? q' := by
  have taken {α : Type} {f : α → Item H} {items : RunQueue α} (same : items.map f = queue) :
      ∃ b rest, items.pick = some (b, rest) ∧ queue' = rest.map f := by
    rw [← same, RunQueue.pick_map] at pick
    obtain ⟨⟨b, rest⟩, picked, eq⟩ := Option.map_eq_some_iff.mp pick
    exact ⟨b, rest, picked, (congrArg Prod.snd eq).symm⟩
  cases q with
  | renders =>
    obtain ⟨i, renders, picked, rfl⟩ := taken (Option.some.inj found)
    have waits : i ∈ w.renders.items :=
      (RunQueue.perm_of_pick picked).mem_iff.mpr List.mem_cons_self
    obtain ⟨x, there⟩ := known i waits
    simp only [stepFlush, picked, there]
    split
    · cases q' with
      | _ => rfl
    · cases q' with
      | _ => rfl
  | layout =>
    obtain ⟨i, layout, picked, rfl⟩ := taken (Option.some.inj found)
    simp only [stepFlush, picked]
    refine (sameQueues_startEffects _ _ _ q').trans ?_
    cases q' with
    | _ => rfl
  | passive =>
    obtain ⟨i, passive, picked, rfl⟩ := taken (Option.some.inj found)
    simp only [stepFlush, picked]
    refine (sameQueues_startEffects _ _ _ q').trans ?_
    cases q' with
    | _ => rfl
  | custom k =>
    obtain ⟨items, there, same⟩ := Option.map_eq_some_iff.mp found
    obtain ⟨p, rest, picked, rfl⟩ := taken same
    simp only [stepFlush, there, Option.bind_some, picked]
    cases q' with
    | custom l =>
      by_cases same : l = k
      · subst same
        have lt : l < w.custom.length := (List.getElem?_eq_some_iff.mp there).1
        rw [if_pos rfl]
        simp only [start, runQueue?, List.getElem?_set_self lt, Option.map_some]
      · rw [if_neg fun eq => same (QueueId.custom.inj eq)]
        simp only [start, runQueue?, List.getElem?_set_ne (Ne.symm same)]
    | _ => rfl

/-! ## Moves -/

/-- What a move does to a run-queue. -/
inductive Queued (q : QueueId) (w w' : World H) : Prop
  | keeps (same : w'.runQueue? q = w.runQueue? q)
  | pushes {a : Item H} (pushes : Pushes q a w w')
  | hands {a : Item H} (hands : Hands q a w w')

theorem Pushes.runQueue? (pushes : Pushes q a w w') : w'.runQueue? q = w.withItem q a := by
  cases pushes with
  | render asks clean => rw [asks.runQueue?, if_pos ⟨rfl, clean⟩]
  | effects kind top step =>
    simp only [step?, top, stepRender, Option.some.injEq] at step
    subst step
    rw [runQueue?_finishRender]
    cases kind with
    | layout => rfl
    | passive => rfl
  | @job k p next keep stack queue _ _ top found step =>
    rw [step?_program top, Option.some.injEq] at step
    subst step
    have pushed := runQueue?_pushCustom (w := { w with stack }) (q := .custom k) p found
    exact pushed.trans (if_pos rfl)

theorem Hands.runQueue? (known : w.Known) (hands : Hands q a w w') :
    ∃ queue queue', w.runQueue? q = some queue ∧ queue.pick = some (a, queue') ∧
      w'.runQueue? q = some queue' := by
  obtain @⟨stack, queue, queue', top, found, pick, step⟩ := hands
  simp only [step?, top, Option.some.injEq] at step
  subst step
  refine ⟨queue, queue', found, pick, ?_⟩
  refine (runQueue?_stepFlush (w := { w with stack }) ?_ found pick q).trans (if_pos rfl)
  exact fun i waits => known i (.inl waits)

section Step

variable {stack : List (Activity H)}

theorem Asks.queued (asks : Asks i w w') (q : QueueId) : Queued q w w' := by
  by_cases pushes : q = .renders ∧ w.isDirty i = false
  · obtain ⟨rfl, clean⟩ := pushes
    exact .pushes (.render asks clean)
  · exact .keeps (asks.runQueue?.trans (if_neg pushes))

theorem sameQueues_request {r : Request} (gone : r.asks x.connected = false) :
    SameQueues w (w.request i x r) := by
  cases r with
  | connect =>
    have here : x.connected = true := by simpa [Request.asks] using gone
    simp only [request, if_pos here]
    exact .refl w
  | disconnect =>
    simp only [request]
    split
    · exact fun _ => rfl
    · exact .refl w
  | update => cases gone
  | setAttribute name raw =>
    have gone : ¬ x.connected = true := by simpa [Request.asks] using gone
    simp only [request, if_neg gone]
    exact (sameQueues_modify w i _).trans (sameQueues_report _ _)
  | setState name value => cases gone

/-- What a step of a program comes to for the elements and the run-queues. -/
inductive ProgramStep (w w' : World H) : Prop
  | quiet (same : Undisturbed w w')
  | handsBack {k : CleanupSlot} {undo : Program H} {stack : List (Activity H)}
    (left : w' = { w with stack }.modify k.owner fun x =>
      { x with slots := x.slots.setCleanup k.slot undo })
  | request {i : Nat} {r : Request} {next : Program H} {keep : Option Keep}
    {stack : List (Activity H)} {x : Instance H}
    (top : w.stack = .program (.request i r next) keep :: stack) (held : w.held? i = some x)
  | setField {i : Nat} {name : Text} {value : Json} {next : Program H}
    {keep : Option Keep} {stack : List (Activity H)} {x : Instance H}
    (top : w.stack = .program (.setField i name value next) keep :: stack)
    (alive : w.alive? i = some x)
  | first {i slot : Nat} {type : ValueType} {p : Program H} {v : Option SlotValue}
    {stack : List (Activity H)} (top : w.stack = .program p (some (.first i slot type)) :: stack)
    (ends : p.Ends v)
  | change {i slot : Nat} {current v : SlotValue} {stack : List (Activity H)} {x : Instance H}
    (top : w.stack = .program (.give v) (some (.change i slot current)) :: stack)
    (found : w.instances[i]? = some x) (differs : current.differs v = true)
  | push {k : Nat} {p next : Program H} {keep : Option Keep} {stack : List (Activity H)}
    {queue : RunQueue (Program H)} (top : w.stack = .program (.push k p next) keep :: stack)
    (found : w.custom[k]? = some queue)
    (left : w' = ({ w with stack }.pushCustom k p).start next keep)

/-- A program that is for the value of a slot ends. -/
theorem programStep_ends {p : Program H} {kept : Keep} {v : Option SlotValue}
    (top : w.stack = .program p (some kept) :: stack) (ends : p.Ends v)
    (value : kept.cleanup? = none) (step : w.step? = some w') : ProgramStep w w' := by
  cases kept with
  | cleanup k => cases value
  | first i slot type => exact .first top ends
  | change i slot current =>
    rw [step?_ends top ends value, Option.some.injEq] at step
    subst step
    simp only [settle]
    split
    · exact .quiet ⟨rfl, rfl, rfl, rfl, rfl⟩
    · next u given =>
      obtain ⟨rfl, differs⟩ := Option.filter_eq_some_iff.mp given
      cases ends
      cases found : w.instances[i]? with
      | some x => exact .change top found differs
      | none =>
        have nothing (change : Instance H → Instance H) :
            { w with stack }.modify i change = { w with stack } := by
          rw [modify, List.modify_eq_self (List.getElem?_eq_none_iff.mp found)]
        rw [nothing, update]
        simp only [found]
        exact .quiet ⟨rfl, rfl, rfl, rfl, rfl⟩

theorem programStep {p : Program H} {keep : Option Keep}
    (top : w.stack = .program p keep :: stack) (step : w.step? = some w') : ProgramStep w w' := by
  have ends {v : Option SlotValue} (ended : p.Ends v) {kept : Keep} (keeps : keep = some kept)
      (value : kept.cleanup? = none) : ProgramStep w w' :=
    programStep_ends (keeps ▸ top) ended value step
  rw [step?_program top, Option.some.injEq] at step
  subst step
  cases p with
  | done undo =>
    cases keep with
    | none =>
      cases undo with
      | _ => exact .quiet ⟨rfl, rfl, rfl, rfl, rfl⟩
    | some kept =>
      cases kept with
      | cleanup k =>
        cases undo with
        | none => exact .quiet ⟨rfl, rfl, rfl, rfl, rfl⟩
        | some undo => exact .handsBack rfl
      | _ => exact ends (.done undo) rfl rfl
  | give v =>
    cases keep with
    | none => exact .quiet ⟨rfl, rfl, rfl, rfl, rfl⟩
    | some kept =>
      cases kept with
      | cleanup k => exact .quiet ⟨rfl, rfl, rfl, rfl, rfl⟩
      | _ => exact ends (.give v) rfl rfl
  | peek next => exact .quiet ⟨rfl, rfl, rfl, rfl, rfl⟩
  | poke change next => exact .quiet ⟨rfl, rfl, rfl, rfl, rfl⟩
  | request i r next =>
    cases held : w.held? i with
    | none =>
      have still : ({ w with stack }.start next keep).held? i = none := held
      simp only [stepProgram, still]
      exact .quiet ⟨rfl, rfl, rfl, rfl, rfl⟩
    | some x => exact .request top held
  | getField i name next => exact .quiet ⟨rfl, rfl, rfl, rfl, rfl⟩
  | setField i name value next =>
    cases alive : w.alive? i with
    | none =>
      simp only [stepProgram, alive?_start top, alive]
      exact .quiet ⟨rfl, rfl, rfl, rfl, rfl⟩
    | some x => exact .setField top alive
  | revise i slot r next =>
    cases alive : w.alive? i with
    | none =>
      simp only [stepProgram, alive?_start top, alive]
      exact .quiet ⟨rfl, rfl, rfl, rfl, rfl⟩
    | some x =>
      simp only [stepProgram, alive?_start top, alive, World.revise]
      split
      · exact .quiet ⟨rfl, rfl, rfl, rfl, rfl⟩
      · split
        · exact .quiet ⟨rfl, rfl, rfl, rfl, rfl⟩
        · exact .quiet ⟨rfl, rfl, rfl, rfl, rfl⟩
  | call i callback args next =>
    simp only [stepProgram]
    split
    · exact .quiet ⟨rfl, rfl, rfl, rfl, rfl⟩
    · exact .quiet ⟨rfl, rfl, rfl, rfl, rfl⟩
  | queue runner job next =>
    have same := undisturbed_queue { w with stack } runner (.program job)
    exact .quiet ⟨same.instances, same.renders, same.layout, same.passive, same.custom⟩
  | push k job next =>
    cases found : w.custom[k]? with
    | none =>
      simp only [stepProgram, pushCustom, found]
      exact .quiet ⟨rfl, rfl, rfl, rfl, rfl⟩
    | some queue => exact .push top found rfl
  | drive d next =>
    cases d with
    | microtasks => exact .quiet ⟨rfl, rfl, rfl, rfl, rfl⟩
    | untilIdle => exact .quiet ⟨rfl, rfl, rfl, rfl, rfl⟩
    | task =>
      simp only [stepProgram]
      split
      · exact .quiet ⟨rfl, rfl, rfl, rfl, rfl⟩
      · rw [startJob_eq]
        exact .quiet ⟨rfl, rfl, rfl, rfl, rfl⟩
    | tasks =>
      simp only [stepProgram]
      split
      · exact .quiet ⟨rfl, rfl, rfl, rfl, rfl⟩
      · rw [startJob_eq]
        exact .quiet ⟨rfl, rfl, rfl, rfl, rfl⟩
  | render i next =>
    simp only [stepProgram]
    split
    · exact .quiet ⟨rfl, rfl, rfl, rfl, rfl⟩
    · exact .quiet ⟨rfl, rfl, rfl, rfl, rfl⟩

theorem queued_program {p : Program H} {keep : Option Keep}
    (top : w.stack = .program p keep :: stack) (step : w.step? = some w') (q : QueueId) :
    Queued q w w' := by
  cases programStep top step with
  | quiet same => exact .keeps (same.sameQueues q)
  | handsBack left => exact left ▸ .keeps rfl
  | @request i r next keep stack x top held =>
    by_cases asks : r.asks x.connected = true
    · exact (Asks.request top held asks step).queued q
    · have still : ({ w with stack }.start next keep).held? i = some x := held
      rw [step?_program top, Option.some.injEq] at step
      subst step
      simp only [stepProgram, still]
      exact .keeps (sameQueues_request (Bool.eq_false_iff.mpr asks) q)
  | setField top alive => exact (Asks.setField top alive step).queued q
  | first top ends =>
    rw [step?_ends top ends rfl, Option.some.injEq] at step
    exact step ▸ .keeps rfl
  | change top found differs => exact (Asks.change top found differs step).queued q
  | @push k p next keep stack queue top found left =>
    by_cases same : q = .custom k
    · subst same
      exact .pushes (.job top found step)
    · have pushed := runQueue?_pushCustom (w := { w with stack }) (q := q) p found
      exact left ▸ .keeps (pushed.trans (if_neg same))

theorem queued_flush {q' : QueueId} (top : w.stack = .flush q' :: stack)
    (step : w.step? = some w') (known : w.Known) (q : QueueId) : Queued q w w' := by
  have stepped := step
  simp only [step?, top, Option.some.injEq] at step
  subst step
  cases next : (w.runQueue? q').bind RunQueue.pick with
  | none => exact .keeps (sameQueues_stepFlush (w := { w with stack }) next q)
  | some picked =>
    obtain ⟨a, queue'⟩ := picked
    obtain ⟨queue, found, pick⟩ := Option.bind_eq_some_iff.mp next
    by_cases same : q = q'
    · subst same
      exact .hands ⟨top, found, pick, stepped⟩
    · have taken := runQueue?_stepFlush (w := { w with stack })
        (fun i waits => known i (.inl waits)) found pick q
      exact .keeps (taken.trans (if_neg same))

theorem queued_render {cursor : Nat} {rest : Render H} {computed : Keyed Json}
    {purpose : Purpose H} (top : w.stack = .render i rest computed cursor purpose :: stack)
    (step : w.step? = some w') (q : QueueId) : Queued q w w' := by
  have stepped := step
  simp only [step?, top, Option.some.injEq] at step
  subst step
  cases rest with
  | finish result =>
    cases purpose with
    | query next keep => exact .keeps rfl
    | pass =>
      have finished := runQueue?_finishRender (q := q) { w with stack } i result
      by_cases effects : q = .layout ∨ q = .passive
      · rcases effects with rfl | rfl
        · exact .pushes (.effects .layout top stepped)
        · exact .pushes (.effects .passive top stepped)
      · exact .keeps (finished.trans (if_neg effects))
  | peek next => exact .keeps rfl
  | poke change next => exact .keeps rfl
  | perform p next => exact .keeps rfl
  | hook h next =>
    cases found : w.instances[i]? with
    | none =>
      simp only [stepRender, found]
      exact .keeps rfl
    | some x =>
      cases h with
      | setState name value => exact (Asks.hook top found stepped).queued q
      | _ =>
        simp only [stepRender, found]
        split
        · exact .keeps rfl
        · exact .keeps rfl

theorem queued_step (known : w.Known) (step : w.step? = some w') (q : QueueId) :
    Queued q w w' := by
  cases top : w.stack with
  | nil =>
    rw [step?, top] at step
    cases step
  | cons activity stack =>
    cases activity with
    | program p keep => exact queued_program top step q
    | flush q' => exact queued_flush top step known q
    | render i rest computed cursor purpose => exact queued_render top step q
    | checkpoint ran next keep =>
      rcases step_checkpoint top step with ⟨job, microtasks, -, rfl⟩ | ⟨-, rfl⟩
      · exact .keeps rfl
      · exact .keeps rfl
    | effects i effects =>
      simp only [step?, top, Option.some.injEq] at step
      subst step
      cases effects with
      | nil => exact .keeps rfl
      | cons effect rest =>
        simp only [stepEffects]
        split
        · exact .keeps rfl
        · exact .keeps rfl

end Step

/-- Only pushes and hand-overs change a run-queue. -/
theorem Reachable.queued (reached : Reachable w) (next : Next w w') (q : QueueId) :
    Queued q w w' := by
  cases next with
  | step step => exact queued_step reached.known step q
  | create e => exact .keeps rfl
  | drop i => exact .keeps rfl
  | call p rest => exact .keeps rfl

/-! ## Histories -/

/-- A run-queue of the world, or one that is empty. -/
def queueAt (q : QueueId) (w : World H) : RunQueue (Item H) :=
  (w.runQueue? q).getD ⟨.microtask, .fifo, []⟩

theorem queueAt_eq {queue : RunQueue (Item H)} (found : w.runQueue? q = some queue) :
    w.queueAt q = queue := by
  rw [queueAt, found]
  rfl

theorem queueAt_congr (same : w'.runQueue? q = w.runQueue? q) : w'.queueAt q = w.queueAt q := by
  rw [queueAt, queueAt, same]

theorem Pushes.pushed (pushes : Pushes q a w w') {queue : RunQueue (Item H)}
    (found : w.runQueue? q = some queue) : RunQueue.Pushed a (w.queueAt q) (w'.queueAt q) := by
  have after := pushes.runQueue?
  rw [withItem, found] at after
  rw [RunQueue.Pushed, queueAt_eq found, queueAt_eq after]

theorem Hands.handed (hands : Hands q a w w') (known : w.Known) :
    RunQueue.Handed a (w.queueAt q) (w'.queueAt q) := by
  obtain ⟨queue, queue', found, pick, after⟩ := hands.runQueue? known
  rw [RunQueue.Handed, queueAt_eq found, queueAt_eq after, pick]

variable {ws : Nat → World H} {n k m j : Nat} {queue : RunQueue (Item H)}

/-- The host cannot take a run-queue away. -/
theorem Run.exists_runQueue (run : Run ws n) (found : (ws 0).runQueue? q = some queue)
    (le : k ≤ n) : ∃ queue, (ws k).runQueue? q = some queue := by
  induction k with
  | zero => exact ⟨queue, found⟩
  | succ k ih =>
    obtain ⟨before, there⟩ := ih (Nat.le_of_succ_le le)
    have reached := run.reachable (Nat.le_of_succ_le le)
    cases reached.queued (run.next k le) q with
    | keeps same => exact ⟨before, same.trans there⟩
    | pushes pushes =>
      rw [pushes.runQueue?, withItem, there]
      exact ⟨_, rfl⟩
    | hands hands =>
      obtain ⟨-, after, -, -, there⟩ := hands.runQueue? reached.known
      exact ⟨after, there⟩

theorem Run.history (run : Run ws n) (found : (ws 0).runQueue? q = some queue)
    (empty : queue.items = []) : RunQueue.History (fun k => (ws k).queueAt q) n where
  empty := by rw [queueAt_eq found, empty]
  next k lt := by
    have reached := run.reachable (Nat.le_of_lt lt)
    obtain ⟨before, there⟩ := run.exists_runQueue found (Nat.le_of_lt lt)
    cases reached.queued (run.next k lt) q with
    | keeps same => exact .inl (queueAt_congr same)
    | pushes pushes => exact .inr (.inl ⟨_, pushes.pushed there⟩)
    | hands hands => exact .inr (.inr ⟨_, hands.handed reached.known⟩)

/-- What the history of a run-queue shows as pushed is pushed. -/
theorem Run.pushes_of_pushed (run : Run ws n) (found : (ws 0).runQueue? q = some queue) (lt : k < n)
    (pushed : RunQueue.Pushed a ((ws k).queueAt q) ((ws (k + 1)).queueAt q)) :
    Pushes q a (ws k) (ws (k + 1)) := by
  have reached := run.reachable (Nat.le_of_lt lt)
  obtain ⟨before, there⟩ := run.exists_runQueue found (Nat.le_of_lt lt)
  have longer := pushed.length_eq
  cases reached.queued (run.next k lt) q with
  | keeps same =>
    rw [queueAt_congr same] at longer
    omega
  | pushes pushes =>
    have items := congrArg RunQueue.items (pushed.symm.trans (pushes.pushed there))
    simp only [RunQueue.push, List.append_cancel_left_eq, List.cons.injEq, and_true] at items
    exact items ▸ pushes
  | hands hands =>
    have shorter := (hands.handed reached.known).length_eq
    omega

/-- What the history of a run-queue shows as handed over is handed over. -/
theorem Run.hands_of_handed (run : Run ws n) (found : (ws 0).runQueue? q = some queue) (lt : k < n)
    (handed : RunQueue.Handed a ((ws k).queueAt q) ((ws (k + 1)).queueAt q)) :
    Hands q a (ws k) (ws (k + 1)) := by
  have reached := run.reachable (Nat.le_of_lt lt)
  obtain ⟨before, there⟩ := run.exists_runQueue found (Nat.le_of_lt lt)
  have shorter := handed.length_eq
  cases reached.queued (run.next k lt) q with
  | keeps same =>
    rw [queueAt_congr same] at shorter
    omega
  | pushes pushes =>
    have longer := (pushes.pushed there).length_eq
    omega
  | hands hands =>
    have picked := handed.symm.trans (hands.handed reached.known)
    simp only [Option.some.injEq, Prod.mk.injEq, and_true] at picked
    exact picked ▸ hands

/-- What waits in a run-queue waits there until it is handed over. -/
theorem Run.exists_hands (run : Run ws n) (le : m ≤ k) (within : k ≤ n)
    (waits : a ∈ ((ws m).queueAt q).items) (left : a ∉ ((ws k).queueAt q).items) :
    ∃ j, m ≤ j ∧ j < k ∧ Hands q a (ws j) (ws (j + 1)) := by
  induction le with
  | refl => exact absurd waits left
  | @step k le ih =>
    by_cases still : a ∈ ((ws k).queueAt q).items
    · have reached := run.reachable (Nat.le_of_succ_le within)
      cases reached.queued (run.next k within) q with
      | keeps same =>
        rw [queueAt_congr same] at left
        exact absurd still left
      | pushes pushes =>
        obtain ⟨queue, found⟩ : ∃ queue, (ws k).runQueue? q = some queue := by
          refine Option.ne_none_iff_exists'.mp fun lost => ?_
          rw [queueAt, lost] at still
          cases still
        rw [pushes.pushed found] at left
        exact absurd (List.mem_append_left _ still) left
      | @hands b hands =>
        have order := RunQueue.perm_of_pick (hands.handed reached.known)
        rcases List.mem_cons.mp (order.mem_iff.mp still) with rfl | waits
        · exact ⟨k, le, Nat.lt_succ_self k, hands⟩
        · exact absurd waits left
    · obtain ⟨j, after, before, hands⟩ := ih (Nat.le_of_succ_le within) still
      exact ⟨j, after, Nat.lt_succ_of_lt before, hands⟩

/-- The move in which the item has been pushed that the move `k` hands over from run-queue `q`. -/
def origin (ws : Nat → World H) (q : QueueId) (k : Nat) : Nat :=
  RunQueue.origin (fun k => (ws k).queueAt q) k

/-- In the first `n` moves of a run, each hand-over from run-queue `q` has an origin, the push of
what it hands over. -/
structure Answers (ws : Nat → World H) (n : Nat) (q : QueueId) (policy : DequeuePolicy)
    (origin : Nat → Nat) : Prop where
  pushed : ∀ k < n, ∀ a, Hands q a (ws k) (ws (k + 1)) →
    origin k < k ∧ Pushes q a (ws (origin k)) (ws (origin k + 1))
  /-- No push is the origin of two hand-overs. -/
  once : ∀ j < n, ∀ k < n, ∀ a b, Hands q a (ws j) (ws (j + 1)) → Hands q b (ws k) (ws (k + 1)) →
    origin j = origin k → j = k
  /-- When no flush is at work and nothing waits on the event loop, every push has been one. -/
  all : ∀ k ≤ n, (ws k).isIdle = true → .flush q ∉ (ws k).stack →
    ∀ m < k, ∀ a, Pushes q a (ws m) (ws (m + 1)) →
      ∃ j, m < j ∧ j < k ∧ origin j = m ∧ Hands q a (ws j) (ws (j + 1))
  /-- Items are handed over in the order in which they have been pushed. -/
  oldest : policy = .fifo → ∀ j k, j < k → k < n → ∀ a b, Hands q a (ws j) (ws (j + 1)) →
    Hands q b (ws k) (ws (k + 1)) → origin j < origin k
  /-- What has been pushed later has been handed over earlier. -/
  newest : policy = .filo → ∀ k < n, ∀ a, Hands q a (ws k) (ws (k + 1)) →
    ∀ m, origin k < m → m < k → ∀ b, Pushes q b (ws m) (ws (m + 1)) →
      ∃ j, m < j ∧ j < k ∧ origin j = m ∧ Hands q b (ws j) (ws (j + 1))
  /-- The job that is handed over is run next. -/
  called : ∀ k < n, ∀ p, Hands q (.job p) (ws k) (ws (k + 1)) →
    (ws (k + 1)).stack = .program p none :: (ws k).stack

theorem Hands.stack_eq {p : Program H} (hands : Hands q (.job p) w w') :
    w'.stack = .program p none :: w.stack := by
  obtain @⟨stack, queue, queue', top, found, pick, step⟩ := hands
  simp only [step?, top, Option.some.injEq] at step
  subst step
  cases q with
  | custom k =>
    obtain ⟨items, there, rfl⟩ := Option.map_eq_some_iff.mp found
    rw [RunQueue.pick_map] at pick
    obtain ⟨⟨job, rest⟩, picked, eq⟩ := Option.map_eq_some_iff.mp pick
    cases eq
    simp only [stepFlush, there, Option.bind_some, picked]
    rw [top]
    rfl
  | _ =>
    obtain rfl := Option.some.inj found
    rw [RunQueue.pick_map] at pick
    obtain ⟨picked, -, eq⟩ := Option.map_eq_some_iff.mp pick
    cases eq

/-- Nothing waits in a run-queue when nothing waits on the event loop and no flush of it is at
work. -/
theorem Reachable.items_eq_nil (reached : Reachable w) (idle : w.isIdle = true)
    (no_flush : .flush q ∉ w.stack) : (w.queueAt q).items = [] := by
  cases found : w.runQueue? q with
  | none =>
    rw [queueAt, found]
    rfl
  | some queue =>
    rw [queueAt_eq found]
    refine Classical.byContradiction fun waits => ?_
    simp only [isIdle, Bool.and_eq_true, List.isEmpty_iff] at idle
    rcases reached.served q (pending_iff.mpr ⟨queue, found, waits⟩) with microtask | task | flush
    · rw [idle.1] at microtask
      cases microtask
    · rw [idle.2] at task
      cases task
    · exact no_flush flush

theorem Run.answers (run : Run ws n) (found : (ws 0).runQueue? q = some queue)
    (empty : queue.items = []) : Answers ws n q queue.policy (origin ws q) := by
  have history := run.history found empty
  have policy : ((ws 0).queueAt q).policy = queue.policy := by rw [queueAt_eq found]
  have handed {k : Nat} {a : Item H} (lt : k < n) (hands : Hands q a (ws k) (ws (k + 1))) :
      RunQueue.Handed a ((ws k).queueAt q) ((ws (k + 1)).queueAt q) :=
    hands.handed (run.reachable (Nat.le_of_lt lt)).known
  have pushed {m : Nat} {a : Item H} (lt : m < n) (pushes : Pushes q a (ws m) (ws (m + 1))) :
      RunQueue.Pushed a ((ws m).queueAt q) ((ws (m + 1)).queueAt q) := by
    obtain ⟨before, there⟩ := run.exists_runQueue found (Nat.le_of_lt lt)
    exact pushes.pushed there
  refine ⟨fun k lt a hands => ?_, fun j before k lt a b first second => ?_,
    fun k le idle no_flush m lt a pushes => ?_, fun fifo j k lt within a b first second => ?_,
    fun filo k lt a hands m later before b pushes => ?_, fun k lt p hands => hands.stack_eq⟩
  · obtain ⟨-, earlier, push⟩ := history.slips_eq_join lt (handed lt hands)
    exact ⟨earlier, run.pushes_of_pushed found (Nat.lt_trans earlier lt) push⟩
  · exact history.origin_injective before lt (handed before first) (handed lt second)
  · have none_left := (run.reachable le).items_eq_nil idle no_flush
    have slips := history.forall₂_slips le
    rw [none_left, List.forall₂_nil_right_iff] at slips
    rcases history.mem_slips_or_handed le lt (pushed (Nat.lt_of_lt_of_le lt le) pushes) with
      waits | ⟨j, after, before, same, hand⟩
    · rw [slips] at waits
      cases waits
    · exact ⟨j, after, before, same,
        run.hands_of_handed found (Nat.lt_of_lt_of_le before le) hand⟩
  · exact history.origin_lt_origin (policy.trans fifo) lt within
      (handed (Nat.lt_trans lt within) first) (handed within second)
  · rcases history.mem_slips_or_handed (Nat.le_of_lt lt) before
      (pushed (Nat.lt_trans before lt) pushes) with waits | ⟨j, after, earlier, same, hand⟩
    · have last := history.le_origin (policy.trans filo) lt (handed lt hands) waits
      exact absurd later (Nat.not_lt_of_le last)
    · exact ⟨j, after, earlier, same, run.hands_of_handed found (Nat.lt_trans earlier lt) hand⟩

/-- Whatever waits in a run-queue, a flush of it is to come or at work; and what has been pushed is
handed over once, in the order of the queue, from when the queue was empty. -/
theorem Run.exists_answers (run : Run ws n) (found : (ws 0).runQueue? q = some queue)
    (empty : queue.items = []) :
    (∀ k ≤ n, (ws k).Pending q → (ws k).Flushing q) ∧
      ∃ origin, Answers ws n q queue.policy origin :=
  ⟨fun _ le => (run.reachable le).served q, _, run.answers found empty⟩

/-- A host with a queue of its own, the newest first, pushes two jobs, of which the first pushes
another one when it is run. -/
def stacking : World Unit :=
  (fresh {} [(.task, .filo)] ()).start
    (.push 0 (.push 0 .skip .skip) (.push 0 .skip (.drive .untilIdle fun _ => .skip))) none

theorem busy_stacking : ∀ k < 19, (stacking.run k).stack ≠ [] := by decide

theorem exists_answers_stacking :
    ∃ j, 0 < j ∧ j < 19 ∧ Hands (.custom 0) (.job (.push 0 .skip .skip)) (stacking.run j)
      (stacking.run (j + 1)) := by
  have reached : Reachable stacking := .next (.fresh {} [(.task, .filo)] ()) (.call _ rfl)
  have pushes : Pushes (.custom 0) (.job (.push 0 .skip .skip)) (stacking.run 0)
      (stacking.run 1) := .job rfl rfl (step?_run (busy_stacking 0 (by decide)))
  obtain ⟨-, origin, answers⟩ := (reached.runOn busy_stacking).exists_answers
    (q := .custom 0) rfl rfl
  have empty : (stacking.run 19).stack = [] := by decide
  have no_flush : .flush (.custom 0) ∉ (stacking.run 19).stack := by
    rw [empty]
    exact List.not_mem_nil
  obtain ⟨j, after, before, -, hands⟩ := answers.all 19 (Nat.le_refl 19) (by decide) no_flush 0
    (by decide) _ pushes
  exact ⟨j, after, before, hands⟩

end World

end LiveMarkup
