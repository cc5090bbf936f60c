import LiveMarkup.Proofs.Live.Standing

/-!
# Flushes

Only the push that ends the emptiness of a run-queue asks for a flush. That is enough: in all worlds
of all runs, a queue in which something waits has a flush queued on the event loop or at work, which
goes on until nothing waits. So nothing waits when the loop is idle.
-/

namespace LiveMarkup

variable {H : Type}

namespace World

variable {w w' : World H} {q q' : QueueId}

/-- Something waits in run-queue `q`. -/
def Pending (w : World H) : QueueId → Prop
  | .renders => w.renders.items ≠ []
  | .layout => w.layout.items ≠ []
  | .passive => w.passive.items ≠ []
  | .custom k => ∃ queue, w.custom[k]? = some queue ∧ queue.items ≠ []

/-- A flush of run-queue `q` is queued on the event loop or at work. -/
def Flushing (w : World H) (q : QueueId) : Prop :=
  Job.flush q ∈ w.microtasks ∨ Job.flush q ∈ w.tasks ∨ Activity.flush q ∈ w.stack

/-- If something waits in run-queue `q`, a flush will hand it over. -/
def Served (w : World H) (q : QueueId) : Prop := w.Pending q → w.Flushing q

/-! ## Activities -/

section Stack

variable {a : Activity H} {stack : List (Activity H)}

theorem Served.pushed (served : w.Served q) (a : Activity H) :
    { w with stack := a :: w.stack }.Served q := by
  intro pending
  rcases served pending with microtask | task | work
  · exact .inl microtask
  · exact .inr (.inl task)
  · exact .inr (.inr (List.mem_cons_of_mem _ work))

theorem Served.popped (served : w.Served q) (top : w.stack = a :: stack) (other : a ≠ .flush q) :
    { w with stack }.Served q := by
  intro pending
  rcases served pending with microtask | task | work
  · exact .inl microtask
  · exact .inr (.inl task)
  · rw [top] at work
    exact .inr (.inr ((List.mem_cons.mp work).resolve_left (Ne.symm other)))

/-- A flush ends when nothing waits in its queue. -/
theorem Served.emptied (served : w.Served q) (top : w.stack = .flush q' :: stack)
    (empty : ¬ { w with stack }.Pending q') : { w with stack }.Served q := by
  by_cases same : q' = q
  · subst same
    exact fun pending => absurd pending empty
  · refine served.popped top ?_
    simpa using same

/-- While a flush of a queue is at work, the queue may change. -/
theorem Served.picked (served : w.Served q) (top : w.stack = .flush q' :: stack)
    (same : w'.microtasks = w.microtasks ∧ w'.tasks = w.tasks ∧ w'.stack = w.stack)
    (others : q ≠ q' → w'.Pending q → w.Pending q) : w'.Served q := by
  intro pending
  obtain ⟨microtasks, tasks, work⟩ := same
  rw [Flushing, microtasks, tasks, work]
  by_cases same : q = q'
  · rw [top, same]
    exact .inr (.inr List.mem_cons_self)
  · exact served (others same pending)

theorem Served.pickedRender (served : w.Served q) (top : w.stack = .flush .renders :: stack)
    (renders : RunQueue Nat) : { w with renders }.Served q := by
  refine served.picked top ⟨rfl, rfl, rfl⟩ fun other => ?_
  cases q with
  | renders => exact absurd rfl other
  | _ => exact id

end Stack

/-! ## Pushes -/

theorem flushing_queue (runner : Runner) : (w.queue runner (.flush q)).Flushing q := by
  cases runner with
  | microtask => exact .inl (List.mem_append_right _ List.mem_cons_self)
  | task => exact .inr (.inl (List.mem_append_right _ List.mem_cons_self))

theorem served_queue (served : w.Served q) (runner : Runner) (job : Job H) :
    (w.queue runner job).Served q := by
  intro pending
  cases runner with
  | microtask =>
    rcases served pending with microtask | later
    · exact .inl (List.mem_append_left _ microtask)
    · exact .inr later
  | task =>
    rcases served pending with microtask | task | work
    · exact .inl microtask
    · exact .inr (.inl (List.mem_append_left _ task))
    · exact .inr (.inr work)

/-- A push that asks for a flush if the queue was empty leaves all queues served. -/
theorem served_schedule {wasEmpty : Bool} (runner : Runner)
    (served : q ≠ q' ∨ wasEmpty = false → w.Served q) :
    (w.schedule wasEmpty runner q').Served q := by
  unfold schedule
  split
  · by_cases same : q = q'
    · intro _
      rw [same]
      exact flushing_queue runner
    · exact served_queue (served (.inl same)) _ _
  · next nonempty => exact served (.inr (Bool.eq_false_iff.mpr nonempty))

theorem served_pushRender (served : w.Served q) (i : Nat) : (w.pushRender i).Served q := by
  refine served_schedule _ fun other pending => ?_
  cases q with
  | renders => exact served (by simpa [Pending] using other)
  | layout => exact served pending
  | passive => exact served pending
  | custom k => exact served pending

theorem served_pushEffects (served : w.Served q) (i : Nat) : (w.pushEffects i).Served q := by
  refine served_schedule _ fun other pending => ?_
  have pushed : ({ w with layout := (w.layout.push i).2 }.schedule (w.layout.push i).1
      w.layout.runner .layout).Served q := by
    refine served_schedule _ fun other pending => ?_
    cases q with
    | layout => exact served (by simpa [Pending, RunQueue.push] using other)
    | renders => exact served pending
    | passive => exact served pending
    | custom k => exact served pending
  cases q with
  | passive => exact pushed (by simpa [Pending, RunQueue.push] using other)
  | renders => exact pushed pending
  | layout => exact pushed pending
  | custom k => exact pushed pending

theorem served_pushCustom (served : w.Served q) (k : Nat) (p : Program H) :
    (w.pushCustom k p).Served q := by
  unfold pushCustom
  split
  · exact served
  · next queue found =>
    refine served_schedule _ fun other pending => ?_
    cases q with
    | renders => exact served pending
    | layout => exact served pending
    | passive => exact served pending
    | custom l =>
      refine served ?_
      by_cases same : k = l
      · subst same
        exact ⟨queue, found, by simpa [RunQueue.push] using other⟩
      · obtain ⟨queue', found', nonempty⟩ := pending
        rw [List.getElem?_set_ne same] at found'
        exact ⟨queue', found', nonempty⟩

theorem served_update (served : w.Served q) (i : Nat) : (w.update i).Served q := by
  unfold update
  split
  · exact served
  · split
    · exact served
    · refine served_pushRender ?_ i
      exact served

theorem served_of_change (change : Change w w') (served : w.Served q) : w'.Served q := by
  cases change with
  | modify i change keeps => exact served
  | create e => exact served
  | tell notices host => exact served
  | start a plain => exact served.pushed a
  | queue runner p => exact served_queue served _ _
  | update i => exact served_update served i
  | pushEffects i => exact served_pushEffects served i
  | pushCustom k p => exact served_pushCustom served k p

theorem served_of_changes (changes : Changes w w') (served : w.Served q) : w'.Served q := by
  induction changes with
  | refl => exact served
  | tail _ change ih => exact served_of_change change ih

/-! ## Moves -/

theorem served_of_stepped (served : w.Served q) (stepped : Stepped w w') : w'.Served q := by
  cases stepped with
  | plain top isPlain changes =>
    exact served_of_changes changes (served.popped top (Activity.ne_flush_of_isPlain isPlain q))
  | @microtask ran next keep stack job microtasks top first =>
    intro pending
    have popped := (served.popped top (by simp) pending : { w with stack }.Flushing q)
    rcases popped with microtask | task | work
    · have microtask : Job.flush q ∈ job :: microtasks := first ▸ microtask
      rcases List.mem_cons.mp microtask with rfl | later
      · exact .inr (.inr List.mem_cons_self)
      · exact .inl later
    · exact .inr (.inl task)
    · exact .inr (.inr (List.mem_cons_of_mem _ (List.mem_cons_of_mem _ work)))
  | @task a next keep stack job tasks top isPlain first =>
    intro pending
    have popped :=
      (served.popped top (Activity.ne_flush_of_isPlain isPlain q) pending :
        { w with stack }.Flushing q)
    rcases popped with microtask | task | work
    · exact .inl microtask
    · have task : Job.flush q ∈ job :: tasks := first ▸ task
      rcases List.mem_cons.mp task with rfl | later
      · exact .inr (.inr List.mem_cons_self)
      · exact .inr (.inl later)
    · exact .inr (.inr (List.mem_cons_of_mem _ (List.mem_cons_of_mem _ work)))
  | emptyRenders top empty =>
    exact served.emptied top fun pending => pending (RunQueue.pick_eq_none_iff.mp empty)
  | emptyLayout top empty =>
    exact served.emptied top fun pending => pending (RunQueue.pick_eq_none_iff.mp empty)
  | emptyPassive top empty =>
    exact served.emptied top fun pending => pending (RunQueue.pick_eq_none_iff.mp empty)
  | emptyCustom top empty =>
    refine served.emptied top fun ⟨queue, found, nonempty⟩ => nonempty ?_
    have found : w.custom[_]? = some queue := found
    rw [found] at empty
    exact RunQueue.pick_eq_none_iff.mp empty
  | skip top pick found gone => exact served.pickedRender top _
  | pass top pick found here => exact (served.pickedRender top _).pushed _
  | layout top pick changes =>
    refine served_of_changes changes (served.picked top ⟨rfl, rfl, rfl⟩ fun other => ?_)
    cases q with
    | layout => exact absurd rfl other
    | _ => exact id
  | passive top pick changes =>
    refine served_of_changes changes (served.picked top ⟨rfl, rfl, rfl⟩ fun other => ?_)
    cases q with
    | passive => exact absurd rfl other
    | _ => exact id
  | custom top found pick changes =>
    refine served_of_changes changes (served.picked top ⟨rfl, rfl, rfl⟩ fun other => ?_)
    cases q with
    | custom l =>
      rintro ⟨queue, found, nonempty⟩
      rw [List.getElem?_set_ne (by simpa [eq_comm] using other)] at found
      exact ⟨queue, found, nonempty⟩
    | _ => exact id
  | render top changes =>
    exact served_of_changes changes ((served.popped top (by simp)).pushed _)
  | finish top changes =>
    have finished := served_of_changes changes (served.popped top (by simp))
    refine served_pushEffects ?_ _
    exact finished

theorem Reachable.served (reached : Reachable w) (q : QueueId) : w.Served q := by
  induction reached with
  | fresh config queues host =>
    intro pending
    cases q with
    | renders => exact absurd rfl pending
    | layout => exact absurd rfl pending
    | passive => exact absurd rfl pending
    | custom k =>
      obtain ⟨queue, found, nonempty⟩ := pending
      obtain ⟨_, _, rfl⟩ := List.mem_map.mp (List.mem_of_getElem? found)
      exact absurd rfl nonempty
  | next reached next ih =>
    cases next with
    | step step => exact served_of_stepped ih (stepped reached.known step)
    | create e => exact ih
    | drop i => exact ih
    | call p rest => exact ih.pushed _

theorem not_pending_of_loopIdle (reached : Reachable w) (idle : w.loopIdle = true)
    (q : QueueId) : ¬ w.Pending q := by
  intro pending
  simp only [loopIdle, isIdle, Bool.and_eq_true, List.isEmpty_iff, Bool.not_eq_true',
    List.any_eq_false] at idle
  obtain ⟨⟨microtasks, tasks⟩, work⟩ := idle
  rcases reached.served q pending with microtask | task | flush
  · rw [microtasks] at microtask
    cases microtask
  · rw [tasks] at task
    cases task
  · exact work _ flush rfl

/-- When the loop is idle, no instance waits for a pass or is in one. -/
theorem clean_of_loopIdle (reached : Reachable w) (idle : w.loopIdle = true) (i : Nat) :
    w.standing i = .clean := by
  generalize stands : w.standing i = s
  cases stands ▸ reached.proper i with
  | clean => rfl
  | waiting =>
    have waits : i ∈ w.renders.items := waits_pos.mp (stands ▸ Nat.one_pos)
    exact absurd (List.ne_nil_of_mem waits) (not_pending_of_loopIdle reached idle .renders)
  | passing =>
    have during : w.inPass i = true := passes_pos.mp (stands ▸ Nat.one_pos)
    obtain ⟨a, work, isPass⟩ := List.any_eq_true.mp during
    simp only [loopIdle, Bool.and_eq_true, Bool.not_eq_true', List.any_eq_false] at idle
    exact absurd (Activity.isOfLoop_of_isPass isPass) (idle.2 a work)

end World

end LiveMarkup
