import LiveMarkup.Proofs.Live.Histories
import LiveMarkup.Proofs.Live.Seats

/-!
# Drains and tasks

Layout effects are flushed in a microtask, and passive effects in a task. A drain goes on over its
checkpoint until there is no microtask, and no task is taken meanwhile. So a flush of passive
effects is at work only behind the end of a drain that was going on before; and the flush of layout
effects is over by then, since no drain ends as long as it is queued or at work.
-/

namespace LiveMarkup

variable {H : Type}

namespace World

variable {w w' : World H} {below stack : List (Activity H)}

/-! ## Where flushes are queued -/

/-- Flushes of layout effects are microtasks, and flushes of passive effects are tasks. -/
structure Placed (w : World H) : Prop where
  layout : w.layout.runner = .microtask
  passive : w.passive.runner = .task
  microtasks : .flush .passive ∉ w.microtasks
  tasks : .flush .layout ∉ w.tasks

theorem Placed.less (placed : w.Placed) (layout : w'.layout.runner = w.layout.runner)
    (passive : w'.passive.runner = w.passive.runner)
    (microtasks : ∀ q, .flush q ∈ w'.microtasks → .flush q ∈ w.microtasks)
    (tasks : ∀ q, .flush q ∈ w'.tasks → .flush q ∈ w.tasks) : w'.Placed where
  layout := layout.trans placed.layout
  passive := passive.trans placed.passive
  microtasks mem := placed.microtasks (microtasks _ mem)
  tasks mem := placed.tasks (tasks _ mem)

/-- Any job may be queued but a flush of the other runner. -/
theorem Placed.queue (placed : w.Placed) {runner : Runner} {job : Job H}
    (micro : job = .flush .passive → runner = .task)
    (task : job = .flush .layout → runner = .microtask) : (w.queue runner job).Placed := by
  cases runner with
  | microtask =>
    refine ⟨placed.layout, placed.passive, fun mem => ?_, placed.tasks⟩
    rcases List.mem_append.mp mem with mem | mem
    · exact placed.microtasks mem
    · cases micro (List.mem_singleton.mp mem).symm
  | task =>
    refine ⟨placed.layout, placed.passive, placed.microtasks, fun mem => ?_⟩
    rcases List.mem_append.mp mem with mem | mem
    · exact placed.tasks mem
    · cases task (List.mem_singleton.mp mem).symm

theorem Placed.schedule (placed : w.Placed) (wasEmpty : Bool) {runner : Runner} {q : QueueId}
    (passive : q = .passive → runner = .task) (layout : q = .layout → runner = .microtask) :
    (w.schedule wasEmpty runner q).Placed := by
  unfold World.schedule
  split
  · exact placed.queue (fun job => passive (Job.flush.inj job)) fun job =>
      layout (Job.flush.inj job)
  · exact placed

theorem Placed.pushRender (placed : w.Placed) (i : Nat) : (w.pushRender i).Placed := by
  have pushed : { w with renders := (w.renders.push i).2 }.Placed :=
    placed.less rfl rfl (fun _ => id) fun _ => id
  exact pushed.schedule _ (fun q => nomatch q) fun q => nomatch q

theorem Placed.update (placed : w.Placed) (i : Nat) : (w.update i).Placed := by
  unfold World.update
  split
  · exact placed
  · split
    · exact placed
    · refine Placed.pushRender ?_ i
      exact placed.less rfl rfl (fun _ => id) fun _ => id

theorem Placed.pushEffects (placed : w.Placed) (i : Nat) : (w.pushEffects i).Placed := by
  have layout : { w with layout := (w.layout.push i).2 }.Placed :=
    placed.less rfl rfl (fun _ => id) fun _ => id
  have scheduled := layout.schedule (w.layout.push i).1 (q := .layout) (fun q => nomatch q)
    fun _ => layout.layout
  refine Placed.schedule ?_ _ (fun _ => scheduled.passive) fun q => nomatch q
  exact scheduled.less rfl rfl (fun _ => id) fun _ => id

theorem Placed.pushCustom (placed : w.Placed) (k : Nat) (p : Program H) :
    (w.pushCustom k p).Placed := by
  unfold World.pushCustom
  split
  · exact placed
  · refine Placed.schedule ?_ _ (fun q => nomatch q) fun q => nomatch q
    exact placed.less rfl rfl (fun _ => id) fun _ => id

theorem placed_of_changes (placed : w.Placed) (changes : Changes w w') : w'.Placed := by
  induction changes with
  | refl => exact placed
  | tail _ change ih =>
    cases change with
    | modify i change keeps => exact ih.less rfl rfl (fun _ => id) fun _ => id
    | create e => exact ih.less rfl rfl (fun _ => id) fun _ => id
    | tell notices host => exact ih.less rfl rfl (fun _ => id) fun _ => id
    | start a plain => exact ih.less rfl rfl (fun _ => id) fun _ => id
    | queue runner p => exact ih.queue (fun job => nomatch job) fun job => nomatch job
    | update i => exact ih.update i
    | pushEffects i => exact ih.pushEffects i
    | pushCustom k p => exact ih.pushCustom k p

theorem placed_of_stepped (placed : w.Placed) (stepped : Stepped w w') : w'.Placed := by
  have onStack (stack : List (Activity H)) : { w with stack }.Placed :=
    placed.less rfl rfl (fun _ => id) fun _ => id
  cases stepped with
  | plain top isPlain changes => exact placed_of_changes (onStack _) changes
  | microtask top first =>
    exact placed.less rfl rfl (fun q mem => first ▸ List.mem_cons_of_mem _ mem) fun _ => id
  | task top isPlain first =>
    exact placed.less rfl rfl (fun _ => id) fun q mem => first ▸ List.mem_cons_of_mem _ mem
  | emptyRenders top empty => exact onStack _
  | emptyLayout top empty => exact onStack _
  | emptyPassive top empty => exact onStack _
  | emptyCustom top empty => exact onStack _
  | skip top pick found gone => exact placed.less rfl rfl (fun _ => id) fun _ => id
  | pass top pick found here => exact placed.less rfl rfl (fun _ => id) fun _ => id
  | layout top pick changes =>
    refine placed_of_changes ?_ changes
    refine placed.less ?_ rfl (fun _ => id) fun _ => id
    rw [(RunQueue.pick_eq_some pick).1]
  | passive top pick changes =>
    refine placed_of_changes ?_ changes
    refine placed.less rfl ?_ (fun _ => id) fun _ => id
    rw [(RunQueue.pick_eq_some pick).1]
  | custom top found pick changes =>
    refine placed_of_changes ?_ changes
    exact placed.less rfl rfl (fun _ => id) fun _ => id
  | render top changes => exact placed_of_changes (onStack _) changes
  | finish top changes =>
    refine Placed.pushEffects ?_ _
    exact (placed_of_changes (onStack _) changes).less rfl rfl (fun _ => id) fun _ => id

theorem Reachable.placed (reached : Reachable w) : w.Placed := by
  induction reached with
  | fresh => exact ⟨rfl, rfl, List.not_mem_nil, List.not_mem_nil⟩
  | next reached next ih =>
    cases next with
    | step step => exact placed_of_stepped ih (stepped reached.known step)
    | create e => exact ih.less rfl rfl (fun _ => id) fun _ => id
    | drop i => exact ih.less rfl rfl (fun _ => id) fun _ => id
    | call p rest => exact ih.less rfl rfl (fun _ => id) fun _ => id

/-! ## Drains -/

variable {ran : Nat} {next : Nat → Program H} {keep : Option Keep}

/-- Everything is done over a checkpoint that goes on with `next`. -/
def OnCheckpoint (next : Nat → Program H) (keep : Option Keep) (w : World H) : Prop :=
  ∃ above ran, w.stack = above ++ [.checkpoint ran next keep]

/-- A checkpoint finds no microtask left. -/
def EndsDrain (w : World H) : Prop :=
  w.microtasks = [] ∧ ∃ ran next keep below, w.stack = .checkpoint ran next keep :: below

/-- A checkpoint stays at the bottom until the drain ends. -/
theorem OnCheckpoint.stays (on : w.OnCheckpoint next keep) (goes_on : ¬ w.EndsDrain)
    (move : Next w w') : w'.OnCheckpoint next keep := by
  obtain ⟨above, ran, stack⟩ := on
  cases above with
  | nil =>
    rcases move.step_or_keeps (stack ▸ List.cons_ne_nil _ _) with step | ⟨same, -⟩
    · rcases step_checkpoint stack step with ⟨job, microtasks, -, rfl⟩ | ⟨empty, -⟩
      · exact ⟨[job.activity], ran + 1, rfl⟩
      · exact absurd ⟨empty, ran, next, keep, [], stack⟩ goes_on
    · exact ⟨[], ran, same.trans stack⟩
  | cons a above =>
    have standing : Above [.checkpoint ran next keep] w := by
      refine ⟨stack ▸ List.suffix_append _ _, fun same => ?_⟩
      have lengths := congrArg List.length (same.trans stack)
      simp at lengths
    obtain ⟨above, left⟩ := standing.next move
    exact ⟨above, ran, left.symm⟩

/-- The drain that is going on at `p` ends at `d`. -/
structure DrainOf (ws : Nat → World H) (p d : Nat) : Prop where
  le : p ≤ d
  on : ∃ next keep, ∀ k, p ≤ k → k ≤ d → (ws k).OnCheckpoint next keep
  going : ∀ k, p ≤ k → k < d → ¬ (ws k).EndsDrain
  ends : (ws d).EndsDrain

variable {ws : Nat → World H} {n p k s : Nat}

/-- A drain goes on, or has ended. -/
theorem Run.drains_or_ends (run : Run ws n) (le : p ≤ k) (within : k ≤ n)
    (on : (ws p).OnCheckpoint next keep) :
    (∀ l, p ≤ l → l ≤ k → (ws l).OnCheckpoint next keep ∧ ¬ (ws l).EndsDrain) ∨
      ∃ d ≤ k, DrainOf ws p d := by
  induction le with
  | refl =>
    by_cases ends : (ws p).EndsDrain
    · refine .inr ⟨p, Nat.le_refl p, Nat.le_refl p, ⟨next, keep, fun l lower upper => ?_⟩,
        fun l lower upper => absurd lower (Nat.not_le_of_lt upper), ends⟩
      exact Nat.le_antisymm upper lower ▸ on
    · refine .inl fun l lower upper => ?_
      exact Nat.le_antisymm upper lower ▸ ⟨on, ends⟩
  | @step k le ih =>
    rcases ih (Nat.le_of_succ_le within) with still | ⟨d, before, drain⟩
    · obtain ⟨on, goes_on⟩ := still k le (Nat.le_refl k)
      have after := on.stays goes_on (run.next k within)
      have until_then : ∀ l, p ≤ l → l ≤ k + 1 → (ws l).OnCheckpoint next keep := by
        intro l lower upper
        rcases Nat.le_succ_iff.mp upper with earlier | rfl
        · exact (still l lower earlier).1
        · exact after
      by_cases ends : (ws (k + 1)).EndsDrain
      · exact .inr ⟨k + 1, Nat.le_refl _, Nat.le_succ_of_le le, ⟨next, keep, until_then⟩,
          fun l lower upper => (still l lower (Nat.le_of_lt_succ upper)).2, ends⟩
      · refine .inl fun l lower upper => ⟨until_then l lower upper, ?_⟩
        rcases Nat.le_succ_iff.mp upper with earlier | rfl
        · exact (still l lower earlier).2
        · exact ends
    · exact .inr ⟨d, Nat.le_succ_of_le before, drain⟩

/-- At the end of a drain that the host drives nothing else is being done. -/
theorem EndsDrain.stack_eq (ends : w.EndsDrain) (driven : w.HostDriven) :
    ∃ ran next keep, w.stack = [.checkpoint ran next keep] := by
  obtain ⟨-, ran, next, keep, below, stack⟩ := ends
  obtain rfl := driven.checkpoint_below (suffix_of_eq stack)
  exact ⟨ran, next, keep, stack⟩

/-- No layout effects wait at the end of a drain. -/
theorem EndsDrain.layout_eq_nil (ends : w.EndsDrain) (driven : w.HostDriven)
    (reached : Reachable w) : w.layout.items = [] := by
  refine Classical.byContradiction fun waits => ?_
  rcases reached.served .layout waits with microtask | task | flush
  · rw [ends.1] at microtask
    cases microtask
  · exact reached.placed.tasks task
  · obtain ⟨ran, next, keep, stack⟩ := ends.stack_eq driven
    rw [stack] at flush
    cases List.mem_singleton.mp flush

/-! ## Tasks -/

/-- The oldest task is taken, to be run over a checkpoint that stands on `below`. -/
inductive TakesTask (job : Job H) (below : List (Activity H)) (w w' : World H) : Prop
  | intro {a : Activity H} {next : Nat → Program H} {keep : Option Keep}
    (top : w.stack = a :: below) (first : w.tasks = job :: w'.tasks)
    (left : w'.stack = job.activity :: .checkpoint 0 next keep :: below)
    (step : w.step? = some w')

/-- A checkpoint takes no task. -/
theorem TakesTask.not_checkpoint {job : Job H} (takes : TakesTask job below w w') :
    w.stack ≠ .checkpoint ran next keep :: below := by
  intro checkpoint
  obtain ⟨top, first, left, step⟩ := takes
  rcases step_checkpoint checkpoint step with ⟨job', microtasks, -, rfl⟩ | ⟨-, rfl⟩
  · cases (List.cons.inj (List.cons.inj left).2).1
  · have lengths := congrArg List.length left
    simp at lengths

/-- A flush that is there behind the start of a job is the job, or was there before. -/
theorem flush_of_starts {job : Job H} {q : QueueId} {ran : Nat} {next : Nat → Program H}
    {keep : Option Keep}
    (mem : .flush q ∈ job.activity :: .checkpoint ran next keep :: stack) :
    job = .flush q ∨ .flush q ∈ stack := by
  rw [List.mem_cons, List.mem_cons] at mem
  rcases mem with same | checkpoint | waits
  · cases job with
    | program p => cases same
    | flush p =>
      cases same
      exact .inl rfl
  · cases checkpoint
  · exact .inr waits

/-- The flush of passive effects comes onto the stack only as a task. -/
theorem Reachable.exists_takesTask (reached : Reachable w) (move : Next w w')
    (before : .flush .passive ∉ w.stack) (after : .flush .passive ∈ w'.stack) :
    ∃ below, TakesTask (.flush .passive) below w w' := by
  cases move with
  | create e => exact absurd after before
  | drop i => exact absurd after before
  | call p rest => exact absurd ((List.mem_cons.mp after).resolve_left nofun) before
  | step step =>
    have not_under {a : Activity H} {stack : List (Activity H)} (top : w.stack = a :: stack) :
        .flush .passive ∉ stack := fun mem => before (top ▸ List.mem_cons_of_mem a mem)
    have not_new {new : List (Activity H)} (plain : ∀ a ∈ new, a.isPlain = true) :
        .flush .passive ∉ new := by
      intro mem
      cases plain _ mem
    cases stacked_of_stepped (stepped reached.known step) with
    | plain left plain older =>
      rw [left, List.mem_append] at after
      exact absurd (older.mem (after.resolve_left (not_new plain))) before
    | @microtask ran next keep stack job microtasks top first left =>
      rcases flush_of_starts (left ▸ after) with rfl | mem
      · exact absurd (first ▸ List.mem_cons_self) reached.placed.microtasks
      · exact absurd mem (not_under top)
    | @task a next keep stack job top first left =>
      rcases flush_of_starts (left ▸ after) with rfl | mem
      · exact ⟨stack, top, first, left, step⟩
      · exact absurd mem (not_under top)
    | pass top pick found here left =>
      rw [left, List.mem_cons] at after
      exact absurd (after.resolve_left nofun) before
    | resumes top left plain =>
      rw [left, List.mem_append, List.mem_cons] at after
      exact absurd ((after.resolve_left (not_new plain)).resolve_left nofun) (not_under top)

/-- A flush of passive effects that is at work, and was not at `p`, has been taken since. -/
theorem Run.exists_takesTask (run : Run ws n) (le : p ≤ s) (within : s ≤ n)
    (before : .flush .passive ∉ (ws p).stack) (after : .flush .passive ∈ (ws s).stack) :
    ∃ t, p ≤ t ∧ t < s ∧ (∃ below, TakesTask (.flush .passive) below (ws t) (ws (t + 1))) ∧
      ∀ l, t < l → l ≤ s → .flush .passive ∈ (ws l).stack := by
  induction le with
  | refl => exact absurd after before
  | @step s le ih =>
    by_cases working : .flush .passive ∈ (ws s).stack
    · obtain ⟨t, later, earlier, takes, since⟩ := ih (Nat.le_of_succ_le within) working
      refine ⟨t, later, Nat.lt_succ_of_lt earlier, takes, fun l lower upper => ?_⟩
      rcases Nat.le_succ_iff.mp upper with sooner | rfl
      · exact since l lower sooner
      · exact after
    · have takes := (run.reachable (Nat.le_of_succ_le within)).exists_takesTask
        (run.next s within) working after
      refine ⟨s, le, Nat.lt_succ_self s, takes, fun l lower upper => ?_⟩
      exact Nat.le_antisymm upper lower ▸ after

/-- No task is taken before a drain has ended that is going on. -/
theorem HostRun.exists_drainOf (host : HostRun ws n) {t : Nat} {job : Job H} (le : p ≤ t)
    (within : t < n) (on : (ws p).OnCheckpoint next keep)
    (takes : TakesTask job below (ws t) (ws (t + 1))) : ∃ d < t, DrainOf ws p d := by
  -- the checkpoint of the task is at the bottom, so that only one activity has been there before
  have alone : below = [] := by
    obtain ⟨top, first, left, step⟩ := takes
    exact (host.driven (t + 1) within).checkpoint_below (left ▸ List.suffix_cons _ _)
  subst alone
  have checkpoint_free {next : Nat → Program H} {keep : Option Keep} :
      ¬ (ws t).OnCheckpoint next keep := by
    rintro ⟨above, ran, stack⟩
    cases above with
    | nil => exact takes.not_checkpoint stack
    | cons a above =>
      obtain ⟨top, first, left, step⟩ := takes
      have lengths := congrArg List.length (top.symm.trans stack)
      simp at lengths
  rcases host.run.drains_or_ends le (Nat.le_of_lt within) on with still | ⟨d, before, drain⟩
  · exact absurd (still t le (Nat.le_refl t)).1 checkpoint_free
  · obtain ⟨next, keep, on⟩ := drain.on
    refine ⟨d, Nat.lt_of_le_of_ne before ?_, drain⟩
    rintro rfl
    exact checkpoint_free (on d le (Nat.le_refl d))

/-! ## Running until idle -/

/-- A call that runs microtasks and tasks until there is neither, and then goes on with `next`, is
about to start, runs microtasks, or is about to take a task. -/
inductive UntilIdle (next : Nat → Program H) (keep : Option Keep)
    (below : List (Activity H)) (w : World H) : Prop
  | starts (top : w.stack = .program (.drive .untilIdle next) keep :: below)
  | drains {ran : Nat}
    (standing : .checkpoint ran (fun _ => .drive .tasks next) keep :: below <:+ w.stack)
  | tasks (empty : w.microtasks = []) (top : w.stack = .program (.drive .tasks next) keep :: below)

/-- A call that runs until idle goes on so, or is over. -/
theorem UntilIdle.stays (idle : UntilIdle next keep below w) (move : Next w w') :
    UntilIdle next keep below w' ∨ w'.stack = .program (next 0) keep :: below := by
  cases idle with
  | starts top =>
    rcases move.step_or_keeps (top ▸ List.cons_ne_nil _ _) with step | ⟨same, -⟩
    · simp only [step?_program top, stepProgram, Option.some.injEq] at step
      subst step
      exact .inl (.drains (List.suffix_refl _))
    · exact .inl (.starts (same.trans top))
  | @drains ran standing =>
    by_cases top : .checkpoint ran (fun _ => .drive .tasks next) keep :: below = w.stack
    · rcases move.step_or_keeps (top ▸ List.cons_ne_nil _ _) with step | ⟨same, -⟩
      · rcases step_checkpoint top.symm step with ⟨job, microtasks, -, rfl⟩ | ⟨empty, rfl⟩
        · exact .inl (.drains (List.suffix_cons _ _))
        · exact .inl (.tasks empty rfl)
      · exact .inl (.drains (same ▸ standing))
    · exact .inl (.drains (Above.next ⟨standing, top⟩ move))
  | tasks empty top =>
    rcases move.step_or_keeps (top ▸ List.cons_ne_nil _ _) with step | ⟨same, still⟩
    · simp only [step?_program top, stepProgram, Option.some.injEq] at step
      subst step
      split
      · exact .inr rfl
      · rw [startJob_eq]
        exact .inl (.drains (List.suffix_cons _ _))
    · exact .inl (.tasks (still.trans empty) (same.trans top))

/-- A task of a call that runs until idle starts without microtasks. -/
theorem UntilIdle.microtasks_eq_nil (idle : UntilIdle next keep below w) {job : Job H}
    (takes : TakesTask job below w w') : w.microtasks = [] := by
  cases idle with
  | starts top =>
    obtain ⟨-, first, left, step⟩ := takes
    simp only [step?_program top, stepProgram, Option.some.injEq] at step
    subst step
    have lengths := congrArg List.length left
    simp at lengths
  | drains standing =>
    have length : below.length + 1 = w.stack.length := by
      obtain ⟨top, first, left, step⟩ := takes
      rw [top, List.length_cons]
    exact absurd (standing.eq_of_length length).symm takes.not_checkpoint
  | tasks empty top => exact empty

theorem Run.untilIdle (run : Run ws n) (le : p ≤ k) (within : k ≤ n)
    (starts : (ws p).stack = .program (.drive .untilIdle next) keep :: below)
    (going : ∀ l, p < l → l ≤ k → (ws l).stack ≠ .program (next 0) keep :: below) :
    UntilIdle next keep below (ws k) := by
  induction le with
  | refl => exact .starts starts
  | @step k le ih =>
    have before := ih (Nat.le_of_succ_le within)
      fun l lower upper => going l lower (Nat.le_succ_of_le upper)
    exact (before.stays (run.next k within)).resolve_right
      (going (k + 1) (Nat.lt_succ_of_le le) (Nat.le_refl _))

end World

end LiveMarkup
