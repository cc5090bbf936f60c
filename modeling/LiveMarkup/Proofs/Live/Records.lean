import LiveMarkup.Proofs.Live.Contents

/-!
# What renders leave behind

Of its renders an element keeps the dependencies that its hooks have noted, the callbacks that they
have made, the output and a count; of passes that fail a notice is kept. `Recorded` says once which
moves touch these records: a hook notes dependencies and makes callbacks, and the end of a render
counts it and, if it is a pass, leaves the output or the notice. Requests, writes, effects, cleanups
and the handing over of queues leave all records alone.
-/

namespace LiveMarkup

variable {H : Type}

/-- The records of an element. -/
structure Record (H : Type) where
  deps : Places (List Json) := []
  callbacks : List (List Value → Program H) := []
  output : Text := []
  renders : Nat := 0

/-- The records of an instance. -/
def Instance.record (x : Instance H) : Record H :=
  ⟨x.slots.deps, x.slots.callbacks, x.output, x.renders⟩

/-- A render for some purpose has ended and has come to some markup. -/
def Record.ended (r : Record H) (purpose : Purpose H) (markup : Except ResolveError Text) :
    Record H :=
  match purpose, markup with
  | .pass, .ok output => { r with output, renders := r.renders + 1 }
  | _, _ => { r with renders := r.renders + 1 }

@[simp] theorem Record.deps_ended (r : Record H) (purpose : Purpose H)
    (markup : Except ResolveError Text) : (r.ended purpose markup).deps = r.deps := by
  unfold Record.ended
  split
  · rfl
  · rfl

@[simp] theorem Record.callbacks_ended (r : Record H) (purpose : Purpose H)
    (markup : Except ResolveError Text) : (r.ended purpose markup).callbacks = r.callbacks := by
  unfold Record.ended
  split
  · rfl
  · rfl

@[simp] theorem Record.renders_ended (r : Record H) (purpose : Purpose H)
    (markup : Except ResolveError Text) : (r.ended purpose markup).renders = r.renders + 1 := by
  unfold Record.ended
  split
  · rfl
  · rfl

/-- The notices that the end of a render for some purpose gives. -/
def Purpose.endNotices (name : Text) : Purpose H → Except ResolveError Text → List Notice
  | .pass, .error e => [.renderFailed name e]
  | _, _ => []

namespace Notice

/-- The notice tells of a pass that has failed. -/
def isFailure : Notice → Bool
  | .renderFailed _ _ => true
  | _ => false

end Notice

theorem Instance.record_takeEffects (x : Instance H) (kind : EffectKind) :
    ({ x with slots := (x.slots.takeEffects kind).2 } : Instance H).record = x.record := by
  cases kind with
  | _ => rfl

theorem Instance.record_takeCleanup (x : Instance H) (slot : Nat) :
    ({ x with slots := (x.slots.takeCleanup slot).2 } : Instance H).record = x.record := by
  unfold Slots.takeCleanup
  split
  · rfl
  · rfl

theorem Instance.record_putFirst (x : Instance H) (slot : Nat) (type : ValueType)
    (v : Option SlotValue) :
    ({ x with slots := x.slots.putFirst slot type v } : Instance H).record = x.record := by
  cases type with
  | _ => rfl

/-! ## Last moves -/

/-- Of the moves before `m` that have a property, `a` is the last. -/
structure IsLast (P : Nat → Prop) (m a : Nat) : Prop where
  lt : a < m
  holds : P a
  last : ∀ l, a < l → l < m → ¬P l

namespace IsLast

variable {P : Nat → Prop} {m a b : Nat}

theorem next (holds : P m) : IsLast P (m + 1) m :=
  ⟨Nat.lt_succ_self m, holds, fun _ lower upper => absurd upper (Nat.not_lt.mpr lower)⟩

theorem next_of_not (isLast : IsLast P m a) (quiet : ¬P m) : IsLast P (m + 1) a := by
  refine ⟨Nat.lt_succ_of_lt isLast.lt, isLast.holds, fun l lower upper => ?_⟩
  obtain sooner | rfl := Nat.lt_succ_iff_lt_or_eq.mp upper
  · exact isLast.last l lower sooner
  · exact quiet

theorem unique (isLast : IsLast P m a) (again : IsLast P m b) : b = a := by
  obtain sooner | same | later := Nat.lt_trichotomy a b
  · exact absurd again.holds (isLast.last b sooner again.lt)
  · exact same.symm
  · exact absurd isLast.holds (again.last a later isLast.lt)

end IsLast

namespace World

variable {w w' v : World H} {i j : Nat} {x : Instance H}

/-- The records of instance `i`; there are none yet when it is not there. -/
def record (w : World H) (i : Nat) : Record H := ((w.instances[i]?).map Instance.record).getD {}

/-- The notices of passes that have failed. -/
def failures (w : World H) : List Notice := w.notices.filter Notice.isFailure

theorem record_of_found (found : w.instances[i]? = some x) : w.record i = x.record := by
  rw [record, found]
  rfl

/-! ## What leaves records alone -/

/-- Nothing happens to records and failures. -/
structure SameRecords (w w' : World H) : Prop where
  record : ∀ i, w'.record i = w.record i
  failures : w'.failures = w.failures

theorem SameRecords.trans (first : SameRecords w v) (second : SameRecords v w') :
    SameRecords w w' :=
  ⟨fun i => (second.record i).trans (first.record i), second.failures.trans first.failures⟩

theorem SameRecords.of_eq (instances : w'.instances = w.instances)
    (notices : w'.notices = w.notices) : SameRecords w w' where
  record i := by rw [World.record, World.record, instances]
  failures := by rw [World.failures, World.failures, notices]

theorem record_modify {change : Instance H → Instance H} (found : w.instances[i]? = some x)
    (j : Nat) :
    (w.modify i change).record j = if i = j then (change x).record else w.record j := by
  rw [record, record, modify, List.getElem?_modify]
  split
  · next same =>
    subst same
    rw [found]
    rfl
  · cases w.instances[j]? with
    | _ => rfl

theorem sameRecords_modify {change : Instance H → Instance H}
    (keeps : ∀ x, w.instances[i]? = some x → (change x).record = x.record) :
    SameRecords w (w.modify i change) := by
  refine ⟨fun j => ?_, rfl⟩
  cases found : w.instances[i]? with
  | none =>
    rw [record, record, modify, List.getElem?_modify]
    split
    · next same =>
      subst same
      rw [found]
      rfl
    · cases w.instances[j]? with
      | _ => rfl
  | some x =>
    rw [record_modify found]
    split
    · next same =>
      subst same
      rw [keeps x found, record_of_found found]
    · rfl

theorem notices_schedule (w : World H) (wasEmpty : Bool) (runner : Runner) (q : QueueId) :
    (w.schedule wasEmpty runner q).notices = w.notices := by
  unfold schedule queue
  split
  · cases runner with
    | _ => rfl
  · rfl

theorem sameRecords_schedule (w : World H) (wasEmpty : Bool) (runner : Runner) (q : QueueId) :
    SameRecords w (w.schedule wasEmpty runner q) :=
  .of_eq (instances_schedule _ _ _ _) (notices_schedule _ _ _ _)

theorem sameRecords_update (w : World H) (i : Nat) : SameRecords w (w.update i) := by
  unfold update
  split
  · exact .of_eq rfl rfl
  · split
    · exact .of_eq rfl rfl
    · have marked : SameRecords w (w.modify i ({ · with dirty := true })) :=
        sameRecords_modify fun _ _ => rfl
      refine marked.trans (.trans ?_ (sameRecords_schedule _ _ _ _))
      exact .of_eq rfl rfl

theorem notices_pushEffects (w : World H) (i : Nat) :
    (w.pushEffects i).notices = w.notices :=
  (notices_schedule _ _ _ _).trans
    (notices_schedule { w with layout := (w.layout.push i).2 } _ _ _)

theorem sameRecords_pushEffects (w : World H) (i : Nat) : SameRecords w (w.pushEffects i) :=
  .of_eq (instances_pushEffects w i) (notices_pushEffects w i)

theorem sameRecords_pushCustom (w : World H) (k : Nat) (p : Program H) :
    SameRecords w (w.pushCustom k p) := by
  unfold pushCustom
  split
  · exact .of_eq rfl rfl
  · refine .trans ?_ (sameRecords_schedule _ _ _ _)
    exact .of_eq rfl rfl

theorem sameRecords_queue (w : World H) (runner : Runner) (job : Job H) :
    SameRecords w (w.queue runner job) := by
  cases runner with
  | _ => exact .of_eq rfl rfl

/-- Problems with attributes are never told of as passes. -/
theorem sameRecords_report (w : World H) (problems : List AttrProblem) :
    SameRecords w (w.report problems) := by
  unfold report
  split
  · refine ⟨fun _ => rfl, ?_⟩
    have none : (problems.map Notice.attribute).filter Notice.isFailure = [] := by
      refine List.filter_eq_nil_iff.mpr fun notice mem => ?_
      obtain ⟨_, _, rfl⟩ := List.mem_map.mp mem
      exact Bool.false_ne_true
    rw [failures, note, List.filter_append, none, List.append_nil, ← failures]
  · exact .of_eq rfl rfl

theorem sameRecords_request (found : w.instances[i]? = some x) (r : Request) :
    SameRecords w (w.request i x r) := by
  cases r with
  | connect =>
    simp only [request]
    split
    · exact .of_eq rfl rfl
    · refine .trans ?_ (sameRecords_update _ _)
      refine .trans (sameRecords_modify ?_) (sameRecords_report _ _)
      exact fun _ _ => rfl
  | disconnect =>
    simp only [request]
    split
    · refine .trans (v := w.modify i ({ · with
        connected := false, slots := (x.slots.takeCleanups).2 })) (sameRecords_modify ?_) ?_
      · intro y there
        obtain rfl : x = y := Option.some.inj (found.symm.trans there)
        rfl
      · exact .of_eq rfl rfl
    · exact .of_eq rfl rfl
  | update => exact sameRecords_update _ _
  | setAttribute name raw =>
    simp only [request]
    have written : SameRecords w ((w.modify i fun x' => { x' with
        attrs := Keyed.insert x'.attrs (x.element.coerceAttr name raw).1
          (x.element.coerceAttr name raw).2.1 }).report (x.element.coerceAttr name raw).2.2) := by
      refine .trans (sameRecords_modify ?_) (sameRecords_report _ _)
      exact fun _ _ => rfl
    split
    · exact written.trans (sameRecords_update _ _)
    · exact written
  | setState name value =>
    refine .trans (sameRecords_modify ?_) (sameRecords_update _ _)
    exact fun _ _ => rfl

theorem sameRecords_revise (w : World H) (i : Nat) (x : Instance H) (slot : Nat)
    (r : Revision (Program H)) : SameRecords w (w.revise i x slot r) := by
  unfold World.revise
  split
  · exact .of_eq rfl rfl
  · split
    · exact .of_eq rfl rfl
    · exact .of_eq rfl rfl

theorem sameRecords_settle (w : World H) (v : Option SlotValue) (kept : Keep) :
    SameRecords w (w.settle v kept) := by
  cases kept with
  | cleanup k => exact .of_eq rfl rfl
  | first i slot type => exact sameRecords_modify fun x _ => x.record_putFirst slot type v
  | change i slot current =>
    simp only [settle]
    split
    · exact .of_eq rfl rfl
    · refine .trans (sameRecords_modify ?_) (sameRecords_update _ _)
      exact fun _ _ => rfl

theorem sameRecords_startEffects (w : World H) (kind : EffectKind) (i : Nat) :
    SameRecords w (w.startEffects kind i) := by
  unfold startEffects
  split
  · exact .of_eq rfl rfl
  · next x found =>
    split
    · refine .trans (v := w.modify i ({ · with slots := (x.slots.takeEffects kind).2 }))
        (sameRecords_modify fun y there => ?_) ?_
      · obtain rfl : x = y := Option.some.inj (found.symm.trans there)
        exact x.record_takeEffects kind
      · exact .of_eq rfl rfl
    · exact .of_eq rfl rfl

theorem sameRecords_stepEffects (w : World H) (i : Nat) (effects : List (Nat × Program H)) :
    SameRecords w (w.stepEffects i effects) := by
  cases effects with
  | nil => exact .of_eq rfl rfl
  | cons effect rest =>
    obtain ⟨slot, effect⟩ := effect
    simp only [stepEffects]
    split
    · exact .of_eq rfl rfl
    · next x found =>
      refine .trans (v := w.modify i ({ · with slots := (x.slots.takeCleanup slot).2 }))
        (sameRecords_modify fun y there => ?_) ?_
      · obtain rfl : x = y := Option.some.inj (found.symm.trans there)
        exact x.record_takeCleanup slot
      · exact .of_eq rfl rfl

/-! ## Ends of renders -/

/-- A render of an element that is not there leaves no records. -/
theorem sameRecords_finishRender (missing : w.instances[i]? = none) (result : TemplateResult)
    (purpose : Purpose H) : SameRecords w (w.finishRender i result purpose) := by
  have nothing (change : Instance H → Instance H) : w.modify i change = w := by
    rw [modify, List.modify_eq_self (List.getElem?_eq_none_iff.mp missing)]
  cases purpose with
  | query next keep =>
    simp only [finishRender, nothing]
    exact .of_eq rfl rfl
  | pass =>
    simp only [finishRender, nothing, missing]
    split
    · rw [nothing]
      exact sameRecords_pushEffects _ _
    · rw [nothing]
      exact sameRecords_pushEffects _ _

section Found

variable (found : w.instances[i]? = some x) (result : TemplateResult)

include found

/-- At the end of a pass the render is counted, its markup is kept or reported, and the element is
clean and waits for its effects. -/
theorem finishRender_pass :
    w.finishRender i result .pass =
      (((match result.resolve w.config with
        | .ok output => (w.modify i fun x => { x with renders := x.renders + 1 }).modify i
            ({ · with output })
        | .error e => (w.modify i fun x => { x with renders := x.renders + 1 }).note
            [.renderFailed x.element.name e]).modify i ({ · with dirty := false })).pushEffects
        i) := by
  cases resolved : result.resolve w.config with
  | _ => simp only [finishRender, found_modify found, resolved]

theorem record_finishRender (purpose : Purpose H) (j : Nat) :
    (w.finishRender i result purpose).record j =
      if i = j then (w.record j).ended purpose (result.resolve w.config) else w.record j := by
  have counted : (w.modify i fun x => { x with renders := x.renders + 1 }).record j =
      if i = j then { w.record j with renders := (w.record j).renders + 1 } else w.record j := by
    rw [record_modify found]
    split
    · next same =>
      subst same
      rw [record_of_found found]
      rfl
    · rfl
  cases purpose with
  | query next keep => exact counted
  | pass =>
    rw [finishRender_pass found, (sameRecords_pushEffects _ i).record]
    cases result.resolve w.config with
    | error e =>
      refine Eq.trans ((sameRecords_modify ?_).record j) counted
      exact fun _ _ => rfl
    | ok output =>
      refine Eq.trans ((sameRecords_modify ?_).record j) ?_
      · exact fun _ _ => rfl
      · rw [record_modify (found_modify found _), counted]
        split
        · next same =>
          subst same
          rw [record_of_found found]
          rfl
        · rfl

theorem notices_finishRender (purpose : Purpose H) :
    (w.finishRender i result purpose).notices =
      w.notices ++ purpose.endNotices x.element.name (result.resolve w.config) := by
  cases purpose with
  | query next keep => exact (List.append_nil _).symm
  | pass =>
    rw [finishRender_pass found, notices_pushEffects]
    cases result.resolve w.config with
    | error e => rfl
    | ok output => exact (List.append_nil _).symm

end Found

/-! ## Moves -/

/-- What a move does to records and failures. -/
inductive Recorded (w w' : World H) : Prop
  | keeps (same : SameRecords w w')
  /-- A hook is answered. -/
  | hook {i cursor : Nat} {h : Hook H} {next : h.Answer → Render H} {computed : Keyed Json}
    {purpose : Purpose H} {stack : List (Activity H)} {x : Instance H}
    (top : w.stack = .render i (.hook h next) computed cursor purpose :: stack)
    (found : w.instances[i]? = some x) (ready : x.slots.pending? cursor h = none)
    (step : w.step? = some w')
  /-- A render ends. -/
  | finish {i cursor : Nat} {result : TemplateResult} {computed : Keyed Json}
    {purpose : Purpose H} {stack : List (Activity H)} {x : Instance H}
    (top : w.stack = .render i (.finish result) computed cursor purpose :: stack)
    (found : w.instances[i]? = some x) (step : w.step? = some w')

section Step

variable {stack : List (Activity H)} {p : Program H} {keep : Option Keep}

theorem sameRecords_program (top : w.stack = .program p keep :: stack)
    (step : w.step? = some w') : SameRecords w w' := by
  rw [step?_program top, Option.some.injEq] at step
  subst step
  cases p with
  | done undo =>
    simp only [stepProgram]
    split
    · refine .trans (v := { w with stack }) (.of_eq rfl rfl) (sameRecords_modify ?_)
      exact fun _ _ => rfl
    · exact .trans (v := { w with stack }) (.of_eq rfl rfl) (sameRecords_settle _ _ _)
    · exact .of_eq rfl rfl
  | give v =>
    simp only [stepProgram]
    split
    · exact .of_eq rfl rfl
    · exact .trans (v := { w with stack }) (.of_eq rfl rfl) (sameRecords_settle _ _ _)
  | peek next => exact .of_eq rfl rfl
  | poke change next => exact .of_eq rfl rfl
  | request i r next =>
    simp only [stepProgram]
    split
    · exact .of_eq rfl rfl
    · next x held =>
      refine .trans (v := { w with stack }.start next keep) (.of_eq rfl rfl) ?_
      exact sameRecords_request (found_of_held held) r
  | getField i name next => exact .of_eq rfl rfl
  | setField i name value next =>
    simp only [stepProgram]
    split
    · exact .of_eq rfl rfl
    · next x alive =>
      refine .trans (v := { w with stack }.start next keep) (.of_eq rfl rfl) ?_
      exact sameRecords_request (found_of_alive alive) (.setState name value)
  | revise i slot r next =>
    simp only [stepProgram]
    split
    · exact .of_eq rfl rfl
    · refine .trans (v := { w with stack }.start next keep) (.of_eq rfl rfl) ?_
      exact sameRecords_revise _ _ _ _ _
  | call i callback args next =>
    simp only [stepProgram]
    split
    · exact .of_eq rfl rfl
    · exact .of_eq rfl rfl
  | queue runner job next =>
    have queued := sameRecords_queue { w with stack } runner (.program job)
    exact ⟨queued.record, queued.failures⟩
  | push k job next =>
    have pushed := sameRecords_pushCustom { w with stack } k job
    exact ⟨pushed.record, pushed.failures⟩
  | drive d next =>
    cases d with
    | microtasks => exact .of_eq rfl rfl
    | untilIdle => exact .of_eq rfl rfl
    | task =>
      simp only [stepProgram]
      split
      · exact .of_eq rfl rfl
      · rw [startJob_eq]
        exact .of_eq rfl rfl
    | tasks =>
      simp only [stepProgram]
      split
      · exact .of_eq rfl rfl
      · rw [startJob_eq]
        exact .of_eq rfl rfl
  | render i next =>
    simp only [stepProgram]
    split
    · exact .of_eq rfl rfl
    · exact .of_eq rfl rfl

theorem sameRecords_flush {q : QueueId} (top : w.stack = .flush q :: stack)
    (step : w.step? = some w') : SameRecords w w' := by
  simp only [step?, top, Option.some.injEq] at step
  subst step
  cases q with
  | renders =>
    simp only [stepFlush]
    split
    · exact .of_eq rfl rfl
    · split
      · exact .of_eq rfl rfl
      · split
        · exact .of_eq rfl rfl
        · refine .trans ?_ (sameRecords_modify ?_)
          · exact .of_eq rfl rfl
          · exact fun _ _ => rfl
  | layout =>
    simp only [stepFlush]
    split
    · exact .of_eq rfl rfl
    · refine .trans ?_ (sameRecords_startEffects _ _ _)
      exact .of_eq rfl rfl
  | passive =>
    simp only [stepFlush]
    split
    · exact .of_eq rfl rfl
    · refine .trans ?_ (sameRecords_startEffects _ _ _)
      exact .of_eq rfl rfl
  | custom k =>
    simp only [stepFlush]
    split
    · exact .of_eq rfl rfl
    · exact .of_eq rfl rfl

theorem recorded_render {i cursor : Nat} {rest : Render H} {computed : Keyed Json}
    {purpose : Purpose H} (top : w.stack = .render i rest computed cursor purpose :: stack)
    (step : w.step? = some w') : Recorded w w' := by
  cases found : w.instances[i]? with
  | none =>
    cases rest with
    | finish result =>
      simp only [step?, top, stepRender, Option.some.injEq] at step
      subst step
      refine .keeps (.trans (v := { w with stack }) (.of_eq rfl rfl) ?_)
      exact sameRecords_finishRender (w := { w with stack }) found _ _
    | _ =>
      simp only [step?, top, stepRender, found, Option.some.injEq] at step
      subst step
      exact .keeps (.of_eq rfl rfl)
  | some x =>
    cases rest with
    | finish result => exact .finish top found step
    | hook h next =>
      cases pending : x.slots.pending? cursor h with
      | none => exact .hook top found pending step
      | some first =>
        simp only [step?, top, stepRender, found, pending, Option.some.injEq] at step
        subst step
        exact .keeps (.of_eq rfl rfl)
    | _ =>
      simp only [step?, top, stepRender, Option.some.injEq] at step
      subst step
      exact .keeps (.of_eq rfl rfl)

end Step

theorem recorded_step (step : w.step? = some w') : Recorded w w' := by
  cases top : w.stack with
  | nil =>
    rw [step?, top] at step
    cases step
  | cons activity stack =>
    cases activity with
    | program p keep => exact .keeps (sameRecords_program top step)
    | flush q => exact .keeps (sameRecords_flush top step)
    | render i rest computed cursor purpose => exact recorded_render top step
    | checkpoint ran next keep =>
      rcases step_checkpoint top step with ⟨job, microtasks, -, rfl⟩ | ⟨-, rfl⟩
      · exact .keeps (.of_eq rfl rfl)
      · exact .keeps (.of_eq rfl rfl)
    | effects i effects =>
      simp only [step?, top, Option.some.injEq] at step
      subst step
      refine .keeps (.trans ?_ (sameRecords_stepEffects _ _ _))
      exact .of_eq rfl rfl

theorem record_create (w : World H) (e : Element H) (i : Nat) :
    (w.create e).record i = w.record i := by
  by_cases lt : i < w.instances.length
  · rw [record, create, List.getElem?_append_left lt, ← record]
  · have beyond : w.instances.length ≤ i := Nat.le_of_not_lt lt
    rw [record, record, create, List.getElem?_append_right beyond, List.getElem?_eq_none beyond]
    cases i - w.instances.length with
    | zero => rfl
    | succ k => rfl

theorem recorded (next : Next w w') : Recorded w w' := by
  cases next with
  | step step => exact recorded_step step
  | create e => exact .keeps ⟨record_create w e, rfl⟩
  | drop i => exact .keeps (sameRecords_modify fun _ _ => rfl)
  | call p rest => exact .keeps (.of_eq rfl rfl)

/-! ## Steps of renders -/

section Finish

variable {cursor : Nat} {result : TemplateResult} {computed : Keyed Json} {purpose : Purpose H}
  {stack : List (Activity H)}

/-- The end of a render counts it, and a pass leaves its markup. -/
theorem record_finish (top : w.stack = .render i (.finish result) computed cursor purpose :: stack)
    (found : w.instances[i]? = some x) (step : w.step? = some w') (j : Nat) :
    w'.record j =
      if i = j then (w.record j).ended purpose (result.resolve w.config) else w.record j := by
  simp only [step?, top, stepRender, Option.some.injEq] at step
  subst step
  exact record_finishRender (w := { w with stack }) found result purpose j

/-- A pass that comes to no markup gives a notice. -/
theorem notices_finish (top : w.stack = .render i (.finish result) computed cursor purpose :: stack)
    (found : w.instances[i]? = some x) (step : w.step? = some w') :
    w'.notices = w.notices ++ purpose.endNotices x.element.name (result.resolve w.config) := by
  simp only [step?, top, stepRender, Option.some.injEq] at step
  subst step
  exact notices_finishRender (w := { w with stack }) found result purpose

end Finish

section Hook

variable {cursor : Nat} {computed : Keyed Json} {purpose : Purpose H} {stack : List (Activity H)}
  {h : Hook H} {next : h.Answer → Render H}

/-- A hook leaves in the records what its answer has noted. -/
theorem record_hook (top : w.stack = .render i (.hook h next) computed cursor purpose :: stack)
    (found : w.instances[i]? = some x) (ready : x.slots.pending? cursor h = none)
    (step : w.step? = some w') (j : Nat) :
    w'.record j =
      if i = j then
        { w.record j with
          deps := ((w.rendering i x computed cursor).answer h).2.slots.deps
          callbacks := ((w.rendering i x computed cursor).answer h).2.slots.callbacks }
      else w.record j := by
  let s := (w.rendering i x computed cursor).answer h
  have answered {v : World H} (same : v.instances = w.instances) :
      (v.modify i fun y => { y with
        attrs := s.2.attrs, state := s.2.state, slots := s.2.slots }).record j =
        if i = j then
          { w.record j with deps := s.2.slots.deps, callbacks := s.2.slots.callbacks }
        else w.record j := by
    rw [record_modify (same ▸ found)]
    split
    · next here =>
      subst here
      rw [record_of_found found]
      rfl
    · rw [record, same, ← record]
  simp only [step?, top, stepRender, found, ready, Option.some.injEq] at step
  subst step
  cases h with
  | setState name value => exact ((sameRecords_update _ _).record j).trans (answered rfl)
  | _ => exact answered rfl

theorem failures_hook (top : w.stack = .render i (.hook h next) computed cursor purpose :: stack)
    (found : w.instances[i]? = some x) (ready : x.slots.pending? cursor h = none)
    (step : w.step? = some w') :
    w'.failures = w.failures := by
  simp only [step?, top, stepRender, found, ready, Option.some.injEq] at step
  subst step
  cases h with
  | setState name value => exact (sameRecords_update _ _).failures
  | _ => rfl

end Hook

end World

end LiveMarkup
