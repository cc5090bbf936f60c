import LiveMarkup.Proofs.Live.Flushes

/-!
# Updates

A dirty instance is in the render queue exactly once, or in a pass; so when the loop is idle every
instance is clean, and everything written in the meantime has been followed by a pass. The exception
are writes that an instance makes while a pass of its own is at work: they find it dirty already,
and the end of the pass makes it clean.
-/

namespace LiveMarkup

variable {H : Type}

namespace World

variable {w w' : World H} {i : Nat} {x : Instance H}

/-! ## Runs of a counter -/

/-- An element with a number in its state. -/
def counter : Element Unit where
  name := "x-counter".toList
  stateFields := [("n".toList, .int 0)]
  render := .hook .view fun _ => .finish ⟨.ok (.static "counted".toList), []⟩

/-- A host that has made two elements of one kind runs a program. -/
def hosting (e : Element Unit) (p : Program Unit) : World Unit :=
  (((fresh {} [] ()).create e).create e).start p none

theorem reachable_hosting (e : Element Unit) (p : Program Unit) : Reachable (hosting e p) :=
  .next (.next (.next (.fresh {} [] ()) (.create _ e)) (.create _ e)) (.call p rfl)

/-! ## Dirty instances -/

theorem dirty_standing (found : w.instances[i]? = some x) : (w.standing i).dirty = x.dirty := by
  simp [standing, isDirty, found]

/-- Outside passes of its own an instance is dirty exactly when it is in the render queue, where it
is once; inside it is not in the queue. When the loop is idle the instance is clean. -/
theorem dirty_iff_queued (reached : Reachable w) (found : w.instances[i]? = some x) :
    w.renders.items.count i ≤ 1 ∧
      (w.inPass i = false → (x.dirty = true ↔ i ∈ w.renders.items)) ∧
      (w.inPass i = true → i ∉ w.renders.items) ∧
      (w.loopIdle = true → x.dirty = false) := by
  have dirty := dirty_standing found
  obtain ⟨once, outside, inside⟩ := (reached.proper i).waits_iff
  refine ⟨once, fun no_pass => ?_, fun pass queued => ?_, fun idle => ?_⟩
  · have none_at_work : (w.standing i).passes = 0 := by
      refine Nat.eq_zero_of_not_pos fun pos => ?_
      rw [passes_pos, no_pass] at pos
      cases pos
    rw [← dirty, ← waits_pos]
    exact outside none_at_work
  · exact absurd (inside (passes_pos.mpr pass)) (Nat.ne_of_gt (waits_pos.mpr queued))
  · rw [← dirty, clean_of_loopIdle reached idle]
    rfl

/-- Two counters are connected and the loop is driven; the pass of the first is at work. -/
def firstInPass : World Unit :=
  (hosting counter
    (.request 0 .connect (.request 1 .connect (.drive .untilIdle fun _ => .skip)))).run 5

theorem dirty_iff_queued_second :
    ∃ x, firstInPass.instances[1]? = some x ∧ x.dirty = true ∧
      firstInPass.renders.items.count 1 ≤ 1 := by
  have reached : Reachable firstInPass := (reachable_hosting _ _).run 5
  obtain ⟨x, found⟩ : ∃ x, firstInPass.instances[1]? = some x := ⟨_, rfl⟩
  obtain ⟨once, outside, -, -⟩ := dirty_iff_queued reached found
  exact ⟨x, found, (outside (by decide)).mpr (by decide), once⟩

/-! ## Writes -/

/-- The next step writes an attribute, a state field or the value of a slot of instance `i`. -/
inductive Writes (i : Nat) (w : World H) : Prop
  | setAttribute {name : Text} {raw : Option Text} {next : Program H}
    {keep : Option Keep} {stack : List (Activity H)} {x : Instance H}
    (top : w.stack = .program (.request i (.setAttribute name raw) next) keep :: stack)
    (held : w.held? i = some x)
  | setState {name : Text} {value : Json} {next : Program H} {keep : Option Keep}
    {stack : List (Activity H)} {x : Instance H}
    (top : w.stack = .program (.request i (.setState name value) next) keep :: stack)
    (held : w.held? i = some x)
  /-- Through a state handle. -/
  | setField {name : Text} {value : Json} {next : Program H} {keep : Option Keep}
    {stack : List (Activity H)} {x : Instance H}
    (top : w.stack = .program (.setField i name value next) keep :: stack)
    (alive : w.alive? i = some x)
  /-- What a setter or a dispatch function has come to makes a difference. -/
  | change {slot : Nat} {current v : SlotValue} {stack : List (Activity H)} {x : Instance H}
    (top : w.stack = .program (.give v) (some (.change i slot current)) :: stack)
    (found : w.instances[i]? = some x) (differs : current.differs v = true)
  /-- In its own render function. -/
  | hook {name : Text} {value : Json} {next : Unit → Render H} {computed : Keyed Json}
    {cursor : Nat} {purpose : Purpose H} {stack : List (Activity H)} {x : Instance H}
    (top : w.stack = .render i (.hook (.setState name value) next) computed cursor purpose :: stack)
    (found : w.instances[i]? = some x)

theorem found_modify (found : w.instances[i]? = some x) (change : Instance H → Instance H) :
    (w.modify i change).instances[i]? = some (change x) := by
  simp [modify, found]

theorem standing_modify_update {change : Instance H → Instance H}
    (found : w.instances[i]? = some x) (keeps : ∀ x, (change x).dirty = x.dirty) :
    ((w.modify i change).update i).standing i = (w.standing i).asked := by
  rw [standing_update (found_modify found change), standing_modify change keeps]

section Start

variable {p next : Program H} {keep : Option Keep} {stack : List (Activity H)}

/-- A checkpoint starts the oldest microtask, or goes on when there is none. -/
theorem step_checkpoint {ran : Nat} {resume : Nat → Program H}
    (top : w.stack = .checkpoint ran resume keep :: stack) (step : w.step? = some w') :
    (∃ job microtasks, w.microtasks = job :: microtasks ∧ w' = { w with
        microtasks, stack := job.activity :: .checkpoint (ran + 1) resume keep :: stack }) ∨
      w.microtasks = [] ∧ w' = { w with stack := .program (resume ran) keep :: stack } := by
  simp only [step?, top, Option.some.injEq] at step
  subst step
  let counting : World H := { w with stack := .checkpoint (ran + 1) resume keep :: stack }
  by_cases empty : w.microtasks = []
  · have ended : counting.startMicrotask? = none := startMicrotask?_nil empty
    simp only [counting, ended]
    exact .inr ⟨empty, rfl⟩
  · obtain ⟨job, microtasks, first⟩ := List.exists_cons_of_ne_nil empty
    have begun := startMicrotask?_cons (w := counting) first
    simp only [counting, begun]
    exact .inl ⟨job, microtasks, first, rfl⟩

theorem standing_start (top : w.stack = .program p keep :: stack) :
    ({ w with stack }.start next keep).standing i = w.standing i := by
  refine standing_congr rfl rfl ?_
  rw [top]
  rfl

theorem standing_start_update {change : Instance H → Instance H}
    (top : w.stack = .program p keep :: stack) (found : w.instances[i]? = some x)
    (keeps : ∀ x, (change x).dirty = x.dirty) :
    ((({ w with stack }.start next keep).modify i change).update i).standing i =
      (w.standing i).asked := by
  have begun : ({ w with stack }.start next keep).instances[i]? = some x := found
  rw [standing_modify_update begun keeps, standing_start top]

end Start

theorem standing_report_update {change : Instance H → Instance H}
    (found : w.instances[i]? = some x) (keeps : ∀ x, (change x).dirty = x.dirty)
    (problems : List AttrProblem) :
    (((w.modify i change).report problems).update i).standing i = (w.standing i).asked := by
  unfold report
  split
  · have written : ((w.modify i change).note (problems.map .attribute)).instances[i]? =
        some (change x) := found_modify found change
    rw [standing_update written]
    exact congrArg Standing.asked (standing_modify change keeps)
  · exact standing_modify_update found keeps

/-- A write asks for a render. -/
theorem standing_of_writes (writes : w.Writes i) (connected : w.isConnected i = true)
    (step : w.step? = some w') : w'.standing i = (w.standing i).asked := by
  cases writes with
  | @setAttribute name raw next keep stack x top held =>
    have found := found_of_held held
    have here : x.connected = true := by simpa [isConnected, found] using connected
    rw [step?_program top, Option.some.injEq] at step
    subst step
    simp only [stepProgram]
    have held : ({ w with stack }.start next keep).held? i = some x := held
    rw [held]
    simp only [request, if_pos here]
    refine (standing_report_update (x := x) ?_ ?_ _).trans ?_
    · exact found
    · exact fun _ => rfl
    · rw [standing_start top]
  | @setState name value next keep stack x top held =>
    rw [step?_program top, Option.some.injEq] at step
    subst step
    simp only [stepProgram]
    have held : ({ w with stack }.start next keep).held? i = some x := held
    rw [held]
    refine standing_start_update top (found_of_held held) ?_
    exact fun _ => rfl
  | @setField name value next keep stack x top alive =>
    have found := found_of_alive alive
    rw [step?_program top, Option.some.injEq] at step
    subst step
    simp only [stepProgram]
    rw [alive?_start top, alive]
    refine standing_start_update top found ?_
    exact fun _ => rfl
  | @change slot current v stack x top found differs =>
    rw [step?_program top, Option.some.injEq] at step
    subst step
    simp only [stepProgram, settle, Option.filter, differs, if_true]
    refine (standing_modify_update (x := x) ?_ ?_).trans ?_
    · exact found
    · exact fun _ => rfl
    · refine congrArg Standing.asked (standing_congr rfl rfl ?_)
      rw [top]
      rfl
  | @hook name value next computed cursor purpose stack x top found =>
    rw [step?, top, Option.some.injEq] at step
    subst step
    simp only [stepRender, found]
    refine (standing_modify_update (x := x) ?_ ?_).trans ?_
    · exact found
    · exact fun _ => rfl
    · refine congrArg Standing.asked (standing_congr rfl rfl ?_)
      rw [top]
      cases purpose with
      | pass => rfl
      | query next keep => rfl

/-! ## Passes -/

/-- An instance that waits and stays connected waits until a pass of it starts. -/
theorem Run.exists_startsPass {ws : Nat → World H} {n : Nat} (run : Run ws n) {a b : Nat}
    (le : a ≤ b) (within : b ≤ n) (waits : (ws a).standing i = .waiting)
    (connected : ∀ k < b, (ws k).isConnected i = true) (left : (ws b).standing i ≠ .waiting) :
    ∃ k, a ≤ k ∧ k < b ∧ StartsPass i (ws k) (ws (k + 1)) := by
  induction le with
  | refl => exact absurd waits left
  | @step b le ih =>
    by_cases still : (ws b).standing i = .waiting
    · refine ⟨b, le, Nat.lt_succ_self b, ?_⟩
      have turn := (run.reachable (Nat.le_of_succ_le within)).turn (run.next b within) i
      cases turn with
      | keeps same => exact absurd (same.trans still) left
      | asks before after => exact absurd after left
      | skips gone before after =>
        rw [connected b (Nat.lt_succ_self b)] at gone
        cases gone
      | begins starts before after => exact starts
      | ends before after => exact absurd (still.symm.trans before) Standing.waiting_ne_passing
    · obtain ⟨k, from_a, to_b, starts⟩ := ih (Nat.le_of_succ_le within)
        (fun k lt => connected k (Nat.lt_succ_of_lt lt)) still
      exact ⟨k, from_a, Nat.lt_succ_of_lt to_b, starts⟩

/-- A write leaves its instance in the render queue, unless a pass of that instance is at work; and
then, if the instance stays connected, a pass of it starts before the loop is idle. -/
theorem Run.pass_after_write {ws : Nat → World H} {n : Nat} (run : Run ws n) (pos : 0 < n)
    (step : (ws 0).step? = some (ws 1)) (writes : (ws 0).Writes i)
    (connected : ∀ k < n, (ws k).isConnected i = true) (idle : (ws n).loopIdle = true) :
    (i ∈ (ws 1).renders.items ↔ (ws 0).inPass i = false) ∧
      ((ws 0).inPass i = false → ∃ k, 0 < k ∧ k < n ∧ StartsPass i (ws k) (ws (k + 1))) := by
  have asked := standing_of_writes writes (connected 0 pos) step
  have queued : i ∈ (ws 1).renders.items ↔ (ws 0).inPass i = false := by
    rw [← waits_pos, asked, (run.start.proper i).asked_waits, passes_pos, Bool.not_eq_true]
  refine ⟨queued, fun outside => ?_⟩
  have waits : (ws 1).standing i = .waiting :=
    ((run.reachable pos).proper i).eq_waiting (waits_pos.mpr (queued.mpr outside))
  have left : (ws n).standing i ≠ .waiting := by
    rw [clean_of_loopIdle (run.reachable (Nat.le_refl n)) idle]
    exact Standing.clean_ne_waiting
  exact run.exists_startsPass pos (Nat.le_refl n) waits connected left

/-- A counter has been rendered and is written to by the host. -/
def counterWritten : World Unit :=
  (hosting counter
    (.request 0 .connect (.drive .untilIdle fun _ =>
      .request 0 (.setState "n".toList (.int 1)) (.drive .untilIdle fun _ => .skip)))).run 18

theorem pass_after_counterWritten :
    ∃ k, 0 < k ∧ k < 18 ∧ StartsPass 0 (counterWritten.run k) (counterWritten.run (k + 1)) := by
  have reached : Reachable counterWritten := (reachable_hosting _ _).run 18
  have busy : ∀ k < 18, (counterWritten.run k).stack ≠ [] := by decide
  have writes : counterWritten.Writes 0 := .setState rfl rfl
  have connected : ∀ k < 18, (counterWritten.run k).isConnected 0 = true := by decide
  have idle : (counterWritten.run 18).loopIdle = true := by decide
  exact ((reached.runOn busy).pass_after_write (by decide) (step?_run (busy 0 (by decide))) writes
    connected idle).2 (by decide)

/-- A counter that sets its number while it is rendered, unless it has been set. -/
def selfCounter : Element Unit where
  name := "x-counter".toList
  stateFields := [("n".toList, .int 0)]
  render := .hook .view fun v =>
    match Keyed.get? v.state "n".toList with
    | some (.int 0) =>
      .hook (.setState "n".toList (.int 1)) fun _ => .finish ⟨.ok (.static "counting".toList), []⟩
    | _ => .finish ⟨.ok (.static "counted".toList), []⟩

/-- What an element writes while it is rendered may be followed by no pass at all. -/
theorem not_pass_after_write :
    ¬ ∀ (ws : Nat → World Unit) (n i : Nat), Run ws n → 0 < n → (ws 0).step? = some (ws 1) →
      (ws 0).Writes i → (∀ k < n, (ws k).isConnected i = true) → (ws n).loopIdle = true →
      ∃ k, 0 < k ∧ k < n ∧ StartsPass i (ws k) (ws (k + 1)) := by
  intro always
  let w : World Unit :=
    (hosting selfCounter (.request 0 .connect (.drive .untilIdle fun _ => .skip))).run 5
  have reached : Reachable w := (reachable_hosting _ _).run 5
  have busy : ∀ k < 14, (w.run k).stack ≠ [] := by decide
  have writes : w.Writes 0 := .hook rfl rfl
  have connected : ∀ k < 14, (w.run k).isConnected 0 = true := by decide
  have idle : (w.run 14).loopIdle = true := by decide
  obtain ⟨k, pos, lt, x, found, work⟩ := always (w.run ·) 14 0 (reached.runOn busy) (by decide)
    (step?_run (busy 0 (by decide))) writes connected idle
  have no_pass : ∀ k < 14, 0 < k → (w.run (k + 1)).inPass 0 = false := by decide
  have during := no_pass k lt pos
  rw [inPass, work] at during
  cases during

end World

end LiveMarkup
