import LiveMarkup.Proofs.Live.Runs

/-!
# What ties an element to the outside

An element is tied to the outside while it is connected, and by the cleanups that its effects have
handed back. `Handled` says once what a step does to these ties and to the stack: only the activity
on top is worked on; an effect goes on the stack only over the flush of its element, which has to be
connected; and cleanups come and go in three ways only, by an effect that ends, by a flush that
turns to an effect, and by a disconnect.
-/

namespace LiveMarkup

variable {H : Type}

/-! ## Places -/

namespace Places

variable {α : Type}

theorem mem_entriesFrom {p : Places α} {i j : Nat} {a : α} (found : get? p i = some a) :
    (j + i, a) ∈ entriesFrom j p := by
  induction p generalizing i j with
  | nil => cases found
  | cons b p ih =>
    cases i with
    | zero =>
      have here : b = some a := found
      subst here
      exact List.mem_cons_self
    | succ i =>
      have later : (j + 1 + i, a) ∈ entriesFrom (j + 1) p := ih found
      rw [Nat.add_assoc, Nat.add_comm 1 i] at later
      cases b with
      | none => exact later
      | some b => exact List.mem_cons_of_mem _ later

/-- What is at a place is one of the entries. -/
theorem mem_entries {p : Places α} {i : Nat} {a : α} (found : get? p i = some a) :
    a ∈ (entries p).map Prod.snd := by
  have entry : (0 + i, a) ∈ entries p := mem_entriesFrom found
  exact List.mem_map.mpr ⟨_, entry, rfl⟩

end Places

/-! ## Ties -/

/-- What ties an element to the outside. -/
structure Ties (H : Type) where
  connected : Bool
  cleanups : Places (Program H)

namespace Ties

/-- The cleanup in a slot is taken. -/
def without (slot : Nat) (t : Ties H) : Ties H :=
  match Places.get? t.cleanups slot with
  | some _ => { t with cleanups := Places.set t.cleanups slot none }
  | none => t

/-- A cleanup is kept in a slot. -/
def keeping (slot : Nat) (c : Program H) (t : Ties H) : Ties H :=
  { t with cleanups := Places.set t.cleanups slot (some c) }

theorem get?_without (slot s : Nat) (t : Ties H) :
    Places.get? (t.without slot).cleanups s =
      if slot = s then none else Places.get? t.cleanups s := by
  unfold without
  split
  · exact Places.get?_set _ _ _ _
  · next empty =>
    split
    · next same => exact same ▸ empty
    · rfl

theorem get?_keeping (slot s : Nat) (c : Program H) (t : Ties H) :
    Places.get? (t.keeping slot c).cleanups s =
      if slot = s then some c else Places.get? t.cleanups s :=
  Places.get?_set _ _ _ _

end Ties

/-- The ties of an instance. -/
def Instance.ties (x : Instance H) : Ties H := ⟨x.connected, x.slots.cleanups⟩

theorem Slots.cleanups_setEffects (s : Slots H) (kind : EffectKind)
    (effects : Places (Program H)) : (s.setEffects kind effects).cleanups = s.cleanups := by
  cases kind with
  | layout => rfl
  | passive => rfl

theorem Slots.takeCleanup_eq (s : Slots H) (slot : Nat) :
    (s.takeCleanup slot).1 = Places.get? s.cleanups slot := by
  unfold takeCleanup
  split
  · next found => exact found.symm
  · next empty => exact empty.symm

theorem Slots.without_takeCleanup (s : Slots H) (slot : Nat) (connected : Bool) :
    (⟨connected, (s.takeCleanup slot).2.cleanups⟩ : Ties H) =
      Ties.without slot ⟨connected, s.cleanups⟩ := by
  unfold takeCleanup Ties.without
  cases Places.get? s.cleanups slot with
  | none => rfl
  | some c => rfl

theorem Slots.cleanups_putFirst (s : Slots H) (slot : Nat) (type : ValueType)
    (v : Option SlotValue) : (s.putFirst slot type v).cleanups = s.cleanups := by
  cases type with
  | json => rfl
  | int => rfl
  | cell => rfl

/-- No hook takes or keeps a cleanup. -/
theorem RenderState.cleanups_answer (s : RenderState H) (h : Hook H) :
    (s.answer h).2.slots.cleanups = s.slots.cleanups := by
  cases h with
  | useEffect kind deps effect =>
    cases deps with
    | none => exact Slots.cleanups_setEffects _ _ _
    | some deps =>
      simp only [RenderState.answer]
      split
      · rfl
      · exact Slots.cleanups_setEffects _ _ _
  | useMemo deps compute =>
    simp only [RenderState.answer]
    split
    · rfl
    · rfl
  | useCallback deps body =>
    simp only [RenderState.answer]
    split
    · rfl
    · rfl
  | useState init => rfl
  | useInt init => rfl
  | useCell init => rfl
  | view => rfl
  | setState name value => rfl
  | readCell cell => rfl
  | writeCell cell n => rfl

/-! ## Activities -/

namespace Activity

/-- What is kept of the end of what the activity runs. -/
def kept? : Activity H → Option Keep
  | .program _ keep => keep
  | .checkpoint _ _ keep => keep
  | .render _ _ _ _ (.query _ keep) => keep
  | .render _ _ _ _ .pass | .flush _ | .effects _ _ => none

/-- The slot in which the undoing of what the activity runs is kept. -/
def keep? (a : Activity H) : Option CleanupSlot := a.kept?.bind Keep.cleanup?

/-- The activity runs the effects of an element. -/
def isEffects : Activity H → Bool
  | .effects _ _ => true
  | _ => false

/-- The activity hands over a run-queue. -/
def isFlush : Activity H → Bool
  | .flush _ => true
  | _ => false

/-- The activity drives the event loop. -/
def isCheckpoint : Activity H → Bool
  | .checkpoint _ _ _ => true
  | _ => false

/-- The activity `b` goes on in the place of `a`. -/
structure Heir (a b : Activity H) : Prop where
  kept : b.kept? = a.kept?
  effects : b.isEffects = false
  flush : b.isFlush = true → a.isFlush = true

/-- The activity `c` is called by `b`, over which it stands. -/
structure Called (b c : Activity H) : Prop where
  keep : c.keep? = none
  effects : c.isEffects = false
  checkpoint : c.isCheckpoint = false
  flush : c.isFlush = true → b.isCheckpoint = true

variable {a b c : Activity H}

theorem Heir.keep (heir : a.Heir b) : b.keep? = a.keep? := by rw [keep?, keep?, heir.kept]

theorem Heir.of_plain (kept : b.kept? = a.kept?) (effects : b.isEffects = false)
    (plain : b.isFlush = false) : a.Heir b :=
  ⟨kept, effects, fun flush => absurd flush (Bool.eq_false_iff.mp plain)⟩

theorem Called.of_plain (keep : c.keep? = none) (effects : c.isEffects = false)
    (checkpoint : c.isCheckpoint = false) (plain : c.isFlush = false) : b.Called c :=
  ⟨keep, effects, checkpoint, fun flush => absurd flush (Bool.eq_false_iff.mp plain)⟩

end Activity

theorem Job.kept?_activity (job : Job H) : job.activity.kept? = none := by
  cases job with
  | program p => rfl
  | flush q => rfl

theorem Job.called (job : Job H) {b : Activity H} (checkpoint : b.isCheckpoint = true) :
    b.Called job.activity := by
  cases job with
  | program p => exact .of_plain rfl rfl rfl rfl
  | flush q => exact ⟨rfl, rfl, rfl, fun _ => checkpoint⟩

namespace World

/-- The ties of all instances. -/
def ties (w : World H) : List (Ties H) := w.instances.map Instance.ties

/-- The cleanup that is kept in a slot of instance `i`. -/
def cleanup? (w : World H) (i slot : Nat) : Option (Program H) :=
  (w.ties[i]?).bind fun t => Places.get? t.cleanups slot

variable {w w' : World H} {i : Nat}

theorem isConnected_eq (w : World H) (i : Nat) :
    w.isConnected i = (w.ties[i]?).any (·.connected) := by
  rw [isConnected, ties, List.getElem?_map, Option.any_map]
  rfl

theorem ties_of_found {x : Instance H} (found : w.instances[i]? = some x) :
    w.ties[i]? = some x.ties := by
  rw [ties, List.getElem?_map, found]
  rfl

/-! ## What leaves stack and ties alone -/

/-- Nothing happens to the stack and the ties. -/
structure Kept (w w' : World H) : Prop where
  stack : w'.stack = w.stack
  ties : w'.ties = w.ties

theorem Kept.refl (w : World H) : Kept w w := ⟨rfl, rfl⟩

theorem Kept.trans {v : World H} (first : Kept w v) (second : Kept v w') : Kept w w' :=
  ⟨second.stack.trans first.stack, second.ties.trans first.ties⟩

theorem Kept.start (kept : Kept w w') (p : Program H) (keep : Option Keep) :
    Kept (w.start p keep) (w'.start p keep) :=
  ⟨congrArg (Activity.program p keep :: ·) kept.stack, kept.ties⟩

/-- A change of one instance is a change of what is looked at of it. -/
theorem map_modify {α : Type} {look : Instance H → α} {i : Nat}
    {change : Instance H → Instance H} {changeLook : α → α}
    (changed : ∀ x, w.instances[i]? = some x → look (change x) = changeLook (look x)) :
    (w.modify i change).instances.map look = (w.instances.map look).modify i changeLook := by
  refine List.ext_getElem? fun j => ?_
  simp only [modify, List.getElem?_map, List.getElem?_modify]
  cases found : w.instances[j]? with
  | none => rfl
  | some x =>
    simp only [Option.map_some]
    split
    · next same =>
      subst same
      exact congrArg some (changed x found)
    · rfl

theorem ties_modify {i : Nat} {change : Instance H → Instance H} {changeTies : Ties H → Ties H}
    (changed : ∀ x, w.instances[i]? = some x → (change x).ties = changeTies x.ties) :
    (w.modify i change).ties = w.ties.modify i changeTies :=
  map_modify changed

theorem kept_modify_found {i : Nat} {change : Instance H → Instance H}
    (keeps : ∀ x, w.instances[i]? = some x → (change x).ties = x.ties) :
    Kept w (w.modify i change) := by
  refine ⟨rfl, ?_⟩
  have changed : ∀ x, w.instances[i]? = some x → (change x).ties = id x.ties := keeps
  rw [ties_modify changed, List.modify_id]

theorem kept_modify (w : World H) (i : Nat) {change : Instance H → Instance H}
    (keeps : ∀ x, (change x).ties = x.ties) : Kept w (w.modify i change) :=
  kept_modify_found fun x _ => keeps x

theorem kept_queue (w : World H) (runner : Runner) (job : Job H) : Kept w (w.queue runner job) := by
  cases runner with
  | microtask => exact ⟨rfl, rfl⟩
  | task => exact ⟨rfl, rfl⟩

theorem kept_schedule (w : World H) (wasEmpty : Bool) (runner : Runner) (q : QueueId) :
    Kept w (w.schedule wasEmpty runner q) := by
  unfold schedule
  split
  · exact kept_queue _ _ _
  · exact .refl w

theorem kept_pushRender (w : World H) (i : Nat) : Kept w (w.pushRender i) :=
  (⟨rfl, rfl⟩ : Kept w { w with renders := (w.renders.push i).2 }).trans (kept_schedule _ _ _ _)

theorem kept_pushEffects (w : World H) (i : Nat) : Kept w (w.pushEffects i) := by
  have layout : Kept w ({ w with layout := (w.layout.push i).2 }.schedule (w.layout.push i).1
      (w.layout.push i).2.runner .layout) :=
    (⟨rfl, rfl⟩ : Kept w { w with layout := (w.layout.push i).2 }).trans (kept_schedule _ _ _ _)
  refine (layout.trans ?_).trans (kept_schedule _ _ _ _)
  exact ⟨rfl, rfl⟩

theorem kept_pushCustom (w : World H) (k : Nat) (p : Program H) : Kept w (w.pushCustom k p) := by
  unfold pushCustom
  split
  · exact .refl w
  · next queue found =>
    refine .trans ?_ (kept_schedule _ _ _ _)
    exact ⟨rfl, rfl⟩

theorem kept_update (w : World H) (i : Nat) : Kept w (w.update i) := by
  unfold update
  split
  · exact .refl w
  · split
    · exact .refl w
    · refine .trans ?_ (kept_pushRender _ i)
      exact kept_modify w i fun _ => rfl

theorem kept_report (w : World H) (problems : List AttrProblem) : Kept w (w.report problems) := by
  unfold report
  split
  · exact ⟨rfl, rfl⟩
  · exact .refl w

theorem kept_settle (w : World H) (v : Option SlotValue) (keep : Keep) :
    Kept w (w.settle v keep) := by
  cases keep with
  | cleanup k => exact .refl w
  | first i slot type =>
    refine kept_modify w i fun x => ?_
    exact congrArg (Ties.mk x.connected) (x.slots.cleanups_putFirst slot type v)
  | change i slot current =>
    simp only [settle]
    split
    · exact .refl w
    · refine .trans ?_ (kept_update _ i)
      exact kept_modify w i fun _ => rfl

theorem kept_setAttribute (w : World H) (i : Nat) (x : Instance H) (name : Text)
    (raw : Option Text) : Kept w (w.request i x (.setAttribute name raw)) := by
  simp only [request]
  have written : Kept w ((w.modify i fun x' => { x' with
      attrs := Keyed.insert x'.attrs (x.element.coerceAttr name raw).1
        (x.element.coerceAttr name raw).2.1 }).report (x.element.coerceAttr name raw).2.2) := by
    refine .trans ?_ (kept_report _ _)
    exact kept_modify w i fun _ => rfl
  split
  · exact written.trans (kept_update _ i)
  · exact written

theorem kept_setState (w : World H) (i : Nat) (x : Instance H) (name : Text) (value : Json) :
    Kept w (w.request i x (.setState name value)) := by
  refine .trans ?_ (kept_update _ i)
  exact kept_modify w i fun _ => rfl

/-! ## What a step does -/

/-- The next step begins with a program for the value of a slot, and puts it over an activity. -/
inductive Begins (w : World H) : Keep → Program H → Activity H → Prop
  /-- A setter or a dispatch function is called, and the element is still there. -/
  | change {i slot : Nat} {r : Revision (Program H)} {next : Program H} {keep : Option Keep}
    {stack : List (Activity H)} {x : Instance H} {current : SlotValue} {p : Program H}
    (top : w.stack = .program (.revise i slot r next) keep :: stack) (alive : w.alive? i = some x)
    (there : Places.get? x.slots.values slot = some current)
    (program : r.program? current = some p) :
    Begins w (.change i slot current) p (.program next keep)
  /-- A hook finds no value in its slot, and will be called again. -/
  | first {i cursor : Nat} {h : Hook H} {next : h.Answer → Render H} {computed : Keyed Json}
    {purpose : Purpose H} {stack : List (Activity H)} {x : Instance H} {type : ValueType}
    {init : Program H} (top : w.stack = .render i (.hook h next) computed cursor purpose :: stack)
    (found : w.instances[i]? = some x)
    (pending : x.slots.pending? cursor h = some (type, init)) :
    Begins w (.first i cursor type) init (.render i (.hook h next) computed cursor purpose)

/-- What a step does to the stack and the ties. -/
inductive Handled (w : World H) : World H → Prop
  /-- An activity is over. -/
  | ends {a : Activity H} {stack : List (Activity H)} {w' : World H}
    (top : w.stack = a :: stack) (left : w'.stack = stack) (ties : w'.ties = w.ties) : Handled w w'
  | resumes {a b : Activity H} {stack : List (Activity H)} {w' : World H}
    (top : w.stack = a :: stack) (left : w'.stack = b :: stack) (heir : a.Heir b)
    (ties : w'.ties = w.ties) : Handled w w'
  | calls {a b c : Activity H} {stack : List (Activity H)} {w' : World H}
    (top : w.stack = a :: stack) (left : w'.stack = c :: b :: stack) (heir : a.Heir b)
    (called : b.Called c) (ties : w'.ties = w.ties)
    (begins : ∀ keep ∈ c.kept?, ∃ p, c = .program p (some keep) ∧ w.Begins keep p b) :
    Handled w w'
  /-- The effects of an element are flushed. -/
  | flushes {q : QueueId} {i : Nat} {effects : List (Nat × Program H)}
    {stack : List (Activity H)} {w' : World H} (top : w.stack = .flush q :: stack)
    (left : w'.stack = .effects i effects :: w.stack) (here : w.isConnected i = true)
    (ties : w'.ties = w.ties) : Handled w w'
  /-- A flush turns to an effect: first comes the cleanup of its slot. -/
  | turns {i slot : Nat} {effect : Program H} {rest : List (Nat × Program H)}
    {stack : List (Activity H)} {w' : World H}
    (top : w.stack = .effects i ((slot, effect) :: rest) :: stack)
    (left : w'.stack = (w.cleanup? i slot).toList.map (Activity.program · none) ++
      .program effect (some (.cleanup ⟨i, slot⟩)) :: .effects i rest :: stack)
    (ties : w'.ties = w.ties.modify i (Ties.without slot)) : Handled w w'
  /-- An effect ends with a program that undoes it. -/
  | handsBack {k : CleanupSlot} {c : Program H} {stack : List (Activity H)} {w' : World H}
    (top : w.stack = .program (.done (some c)) (some (.cleanup k)) :: stack)
    (left : w'.stack = stack)
    (ties : w'.ties = w.ties.modify k.owner (Ties.keeping k.slot c)) : Handled w w'
  | connects {i : Nat} {next : Program H} {keep : Option Keep}
    {stack : List (Activity H)} {w' : World H}
    (top : w.stack = .program (.request i .connect next) keep :: stack)
    (left : w'.stack = .program next keep :: stack)
    (ties : w'.ties = w.ties.modify i ({ · with connected := true })) : Handled w w'
  | detaches {i : Nat} {x : Instance H} {next : Program H} {keep : Option Keep}
    {stack : List (Activity H)} {w' : World H}
    (top : w.stack = .program (.request i .disconnect next) keep :: stack)
    (held : w.held? i = some x) (here : x.connected = true)
    (left : w'.stack = ((Places.entries x.slots.cleanups).map Prod.snd).map
      (Activity.program · none) ++ .program next keep :: stack)
    (ties : w'.ties = w.ties.modify i fun _ => ⟨false, []⟩) : Handled w w'

section Step

variable {stack : List (Activity H)}

/-- A step that leaves the ties alone and goes on with an activity in place of the one on top. -/
theorem Handled.of_kept {a b : Activity H} (top : w.stack = a :: stack) (heir : a.Heir b)
    (kept : Kept { w with stack := b :: stack } w') : Handled w w' :=
  .resumes top kept.stack heir kept.ties

/-- A step that calls what is not for the value of a slot. -/
theorem Handled.of_called {a b c : Activity H} (top : w.stack = a :: stack)
    (left : w'.stack = c :: b :: stack) (heir : a.Heir b) (called : b.Called c)
    (nothing : c.kept? = none) (ties : w'.ties = w.ties) : Handled w w' := by
  refine .calls top left heir called ties fun keep keeps => ?_
  rw [nothing] at keeps
  cases keeps

/-- A connected element that the host holds is detached. -/
theorem step_disconnect {next : Program H} {keep : Option Keep} {x : Instance H}
    (top : w.stack = .program (.request i .disconnect next) keep :: stack)
    (held : w.held? i = some x) (here : x.connected = true) (step : w.step? = some w') :
    w'.stack = ((Places.entries x.slots.cleanups).map Prod.snd).map (Activity.program · none) ++
        .program next keep :: stack ∧
      w'.ties = w.ties.modify i fun _ => ⟨false, []⟩ := by
  have still : ({ w with stack }.start next keep).held? i = some x := held
  simp only [step?, top, stepProgram, still, request, if_pos here, Option.some.injEq] at step
  subst step
  refine ⟨rfl, ?_⟩
  exact ties_modify fun _ _ => rfl

theorem handled_request {r : Request} {next : Program H} {keep : Option Keep}
    {x : Instance H} (top : w.stack = .program (.request i r next) keep :: stack)
    (held : w.held? i = some x) :
    Handled w (({ w with stack }.start next keep).request i x r) := by
  have heir : (Activity.program (.request i r next) keep).Heir (.program next keep) :=
    .of_plain rfl rfl rfl
  cases r with
  | connect =>
    simp only [request]
    split
    · exact .of_kept top heir (.refl _)
    · -- the notices and the request for a render leave everything alone
      have asked := (kept_report (({ w with stack }.start next keep).modify i
        ({ · with connected := true, attrs := (x.element.fillMissing x.attrs).1 }))
        (x.element.fillMissing x.attrs).2).trans (kept_update _ i)
      refine .connects top asked.stack (asked.ties.trans ?_)
      exact ties_modify fun _ _ => rfl
  | disconnect =>
    simp only [request]
    split
    · next here =>
      refine .detaches top held here ?_ ?_
      · rfl
      · exact ties_modify fun _ _ => rfl
    · exact .of_kept top heir (.refl _)
  | update => exact .of_kept top heir (kept_update _ i)
  | setAttribute name raw => exact .of_kept top heir (kept_setAttribute _ i x name raw)
  | setState name value => exact .of_kept top heir (kept_setState _ i x name value)

/-- An effect ends with a program that undoes it. -/
theorem step_handBack {k : CleanupSlot} {c : Program H}
    (top : w.stack = .program (.done (some c)) (some (.cleanup k)) :: stack)
    (step : w.step? = some w') :
    w'.stack = stack ∧ w'.ties = w.ties.modify k.owner (Ties.keeping k.slot c) := by
  simp only [step?, top, stepProgram, Option.some.injEq] at step
  subst step
  refine ⟨rfl, ?_⟩
  exact ties_modify fun _ _ => rfl

/-- A setter or a dispatch function begins with what it runs, or there is nothing for it. -/
theorem handled_revise {i slot : Nat} {r : Revision (Program H)} {next : Program H}
    {keep : Option Keep} {x : Instance H}
    (top : w.stack = .program (.revise i slot r next) keep :: stack) (alive : w.alive? i = some x) :
    Handled w (({ w with stack }.start next keep).revise i x slot r) := by
  have heir : (Activity.program (.revise i slot r next) keep).Heir (.program next keep) :=
    .of_plain rfl rfl rfl
  unfold revise
  split
  · exact .of_kept top heir (.refl _)
  · next current there =>
    split
    · exact .of_kept top heir (.refl _)
    · next p program =>
      refine .calls top rfl heir (.of_plain rfl rfl rfl rfl) rfl fun keep keeps => ?_
      cases keeps
      exact ⟨p, rfl, .change top alive there program⟩

/-- A program calls, or ends. -/
theorem handled_program {p : Program H} {keep : Option Keep}
    (top : w.stack = .program p keep :: stack) :
    Handled w ({ w with stack }.stepProgram keep p) := by
  have goes_on (q : Program H) : (Activity.program p keep).Heir (.program q keep) :=
    .of_plain rfl rfl rfl
  have drives (ran : Nat) (next : Nat → Program H) :
      (Activity.program p keep).Heir (.checkpoint ran next keep) := .of_plain rfl rfl rfl
  cases p with
  | done undo =>
    cases keep with
    | none =>
      cases undo with
      | none => exact .ends top rfl rfl
      | some c => exact .ends top rfl rfl
    | some keep =>
      have ended := kept_settle { w with stack } none keep
      cases keep with
      | cleanup k =>
        cases undo with
        | none => exact .ends top rfl rfl
        | some c =>
          refine .handsBack top rfl ?_
          exact ties_modify fun _ _ => rfl
      | first i slot type =>
        cases undo with
        | none => exact .ends top ended.stack ended.ties
        | some c => exact .ends top ended.stack ended.ties
      | change i slot current =>
        cases undo with
        | none => exact .ends top ended.stack ended.ties
        | some c => exact .ends top ended.stack ended.ties
  | give v =>
    cases keep with
    | none => exact .ends top rfl rfl
    | some keep =>
      have ended := kept_settle { w with stack } (some v) keep
      exact .ends top ended.stack ended.ties
  | peek next => exact .of_kept top (goes_on _) (.refl _)
  | poke change next => exact .of_kept top (goes_on next) ⟨rfl, rfl⟩
  | request i r next =>
    simp only [stepProgram]
    split
    · exact .of_kept top (goes_on next) (.refl _)
    · next x held => exact handled_request top held
  | getField i name next => exact .of_kept top (goes_on _) (.refl _)
  | setField i name value next =>
    simp only [stepProgram]
    split
    · exact .of_kept top (goes_on next) (.refl _)
    · exact .of_kept top (goes_on next) (kept_setState _ _ _ _ _)
  | revise i slot r next =>
    simp only [stepProgram]
    split
    · exact .of_kept top (goes_on next) (.refl _)
    · next x alive => exact handled_revise top (alive?_start top ▸ alive)
  | call i callback args next =>
    simp only [stepProgram]
    split
    · exact .of_kept top (goes_on next) (.refl _)
    · exact .of_called top rfl (goes_on next) (.of_plain rfl rfl rfl rfl) rfl rfl
  | queue runner job next =>
    have queued := (kept_queue { w with stack } runner (.program job)).start next keep
    exact .resumes top queued.stack (goes_on next) queued.ties
  | push k job next =>
    have pushed := (kept_pushCustom { w with stack } k job).start next keep
    exact .resumes top pushed.stack (goes_on next) pushed.ties
  | drive d next =>
    cases d with
    | microtasks => exact .of_kept top (drives 0 next) (.refl _)
    | untilIdle => exact .of_kept top (drives 0 _) (.refl _)
    | task =>
      simp only [stepProgram]
      split
      · exact .of_kept top (goes_on _) (.refl _)
      · next job tasks first =>
        rw [startJob_eq]
        exact .of_called top rfl (drives 0 _) (job.called rfl) job.kept?_activity rfl
    | tasks =>
      simp only [stepProgram]
      split
      · exact .of_kept top (goes_on _) (.refl _)
      · next job tasks first =>
        rw [startJob_eq]
        exact .of_called top rfl (drives 0 _) (job.called rfl) job.kept?_activity rfl
  | render i next =>
    simp only [stepProgram]
    split
    · exact .of_kept top (goes_on _) (.refl _)
    · exact .resumes top rfl (.of_plain rfl rfl rfl) rfl

theorem handled_checkpoint {ran : Nat} {next : Nat → Program H} {keep : Option Keep}
    (top : w.stack = .checkpoint ran next keep :: stack) (step : w.step? = some w') :
    Handled w w' := by
  simp only [step?, top, Option.some.injEq] at step
  subst step
  let counting : World H := { w with stack := .checkpoint (ran + 1) next keep :: stack }
  by_cases empty : w.microtasks = []
  · have ended : counting.startMicrotask? = none := startMicrotask?_nil empty
    simp only [counting, ended]
    exact .resumes top rfl (.of_plain rfl rfl rfl) rfl
  · obtain ⟨job, microtasks, first⟩ := List.exists_cons_of_ne_nil empty
    have begun := startMicrotask?_cons (w := counting) first
    simp only [counting, begun]
    exact .of_called top rfl (.of_plain rfl rfl rfl) (job.called rfl) job.kept?_activity rfl

/-- Only a connected element has its effects flushed. -/
theorem handled_startEffects {q : QueueId} {v : World H} (top : w.stack = .flush q :: stack)
    (kept : Kept w v) (kind : EffectKind) (i : Nat) : Handled w (v.startEffects kind i) := by
  have again : (Activity.flush q : Activity H).Heir (.flush q) := ⟨rfl, rfl, id⟩
  unfold startEffects
  split
  · exact .resumes top (kept.stack.trans top) again kept.ties
  · next x found =>
    split
    · next here =>
      have connected : w.isConnected i = true := by
        rw [isConnected_eq, ← kept.ties, ties_of_found found]
        exact here
      refine .flushes top (congrArg _ kept.stack) connected ?_
      refine Eq.trans ?_ kept.ties
      refine (kept_modify_found (w := v) (i := i) fun y found' => ?_).ties
      rw [found, Option.some.injEq] at found'
      subst found'
      exact congrArg (Ties.mk _) (Slots.cleanups_setEffects _ _ _)
    · exact .resumes top (kept.stack.trans top) again kept.ties

/-- A flush is over when its queue is empty, or hands over the next item. -/
theorem handled_flush {q : QueueId} (top : w.stack = .flush q :: stack) :
    Handled w ({ w with stack }.stepFlush q) := by
  have again : (Activity.flush q : Activity H).Heir (.flush q) := ⟨rfl, rfl, id⟩
  cases q with
  | renders =>
    simp only [stepFlush]
    split
    · exact .ends top rfl rfl
    · next i renders pick =>
      split
      · exact .of_kept top again ⟨rfl, rfl⟩
      · split
        · exact .of_called top rfl again (.of_plain rfl rfl rfl rfl) rfl rfl
        · have cleaned : Kept { w with stack := .flush .renders :: stack, renders }
              ({ w with stack := .flush .renders :: stack, renders }.modify i
                ({ · with dirty := false })) := kept_modify _ i fun _ => rfl
          exact .resumes top cleaned.stack again cleaned.ties
  | layout =>
    simp only [stepFlush]
    split
    · exact .ends top rfl rfl
    · rw [← top]
      refine handled_startEffects top ?_ _ _
      exact ⟨rfl, rfl⟩
  | passive =>
    simp only [stepFlush]
    split
    · exact .ends top rfl rfl
    · rw [← top]
      refine handled_startEffects top ?_ _ _
      exact ⟨rfl, rfl⟩
  | custom k =>
    simp only [stepFlush]
    split
    · exact .ends top rfl rfl
    · exact .of_called top rfl again (.of_plain rfl rfl rfl rfl) rfl rfl

section Render

variable {i cursor cursor' : Nat} {rest rest' : Render H} {computed : Keyed Json}
  {purpose : Purpose H}

theorem heir_render : (Activity.render i rest computed cursor purpose).Heir
    (.render i rest' computed cursor' purpose) := by
  cases purpose with
  | pass => exact .of_plain rfl rfl rfl
  | query next keep => exact .of_plain rfl rfl rfl

theorem handled_finish {result : TemplateResult}
    (top : w.stack = .render i (.finish result) computed cursor purpose :: stack) :
    Handled w ({ w with stack }.finishRender i result purpose) := by
  have counted : Kept { w with stack }
      ({ w with stack }.modify i fun x => { x with renders := x.renders + 1 }) :=
    kept_modify _ i fun _ => rfl
  cases purpose with
  | query next keep =>
    have asked := counted.start (next (some (result.resolve w.config))) keep
    exact .resumes top asked.stack (.of_plain rfl rfl rfl) asked.ties
  | pass =>
    -- the markup is noted or reported, and the element waits for its effects
    have ended {v : World H} (kept : Kept { w with stack } v) :
        Handled w ((v.modify i ({ · with dirty := false })).pushEffects i) := by
      have cleaned : Kept v (v.modify i ({ · with dirty := false })) := kept_modify _ i fun _ => rfl
      have finished := (kept.trans cleaned).trans (kept_pushEffects _ i)
      exact .ends top finished.stack finished.ties
    simp only [finishRender]
    split
    · refine ended (counted.trans (kept_modify _ i ?_))
      exact fun _ => rfl
    · split
      · exact ended (counted.trans ⟨rfl, rfl⟩)
      · exact ended counted

theorem handled_render (top : w.stack = .render i rest computed cursor purpose :: stack) :
    Handled w ({ w with stack }.stepRender i computed cursor purpose rest) := by
  cases rest with
  | finish result => exact handled_finish top
  | peek next => exact .of_kept top heir_render (.refl _)
  | poke change next => exact .of_kept top heir_render ⟨rfl, rfl⟩
  | perform p next => exact .of_called top rfl heir_render (.of_plain rfl rfl rfl rfl) rfl rfl
  | hook h next =>
    simp only [stepRender]
    split
    · exact .ends top rfl rfl
    · next x found =>
      have told (rest' : Render H) (s : RenderState H)
          (cleanups : s.slots.cleanups = x.slots.cleanups) :
          let w : World H := { w with stack := .render i rest' computed s.cursor purpose :: stack }
          Kept w ({ w with host := s.host }.modify i fun x =>
            { x with attrs := s.attrs, state := s.state, slots := s.slots }) := by
        refine ⟨rfl, (kept_modify_found (i := i) fun y found' => ?_).ties⟩
        obtain rfl : x = y := Option.some.inj (found.symm.trans found')
        exact congrArg (Ties.mk _) cleanups
      split
      · next type init pending =>
        refine .calls top rfl heir_render (.of_plain rfl rfl rfl rfl) rfl fun keep keeps => ?_
        cases keeps
        exact ⟨init, rfl, .first top found pending⟩
      · split
        · refine .of_kept top heir_render ((told _ _ ?_).trans (kept_update _ i))
          exact RenderState.cleanups_answer _ _
        · refine .of_kept top heir_render (told _ _ ?_)
          exact RenderState.cleanups_answer _ _

end Render

/-- A flush turns to an effect. -/
theorem step_turn {i slot : Nat} {effect : Program H} {rest : List (Nat × Program H)}
    (top : w.stack = .effects i ((slot, effect) :: rest) :: stack) (step : w.step? = some w') :
    w'.stack = (w.cleanup? i slot).toList.map (Activity.program · none) ++
        .program effect (some (.cleanup ⟨i, slot⟩)) :: .effects i rest :: stack ∧
      w'.ties = w.ties.modify i (Ties.without slot) := by
  simp only [step?, top, stepEffects, Option.some.injEq] at step
  subst step
  split
  · next lost =>
    have untied : w.ties[i]? = none := by
      rw [ties, List.getElem?_map, lost]
      rfl
    refine ⟨?_, ?_⟩
    · rw [cleanup?, untied]
      rfl
    · exact (List.modify_eq_self (List.getElem?_eq_none_iff.mp untied)).symm
  · next x found =>
    have taken : (x.slots.takeCleanup slot).1 = w.cleanup? i slot := by
      rw [cleanup?, ties_of_found found]
      exact Slots.takeCleanup_eq _ _
    refine ⟨?_, ?_⟩
    · rw [← taken]
      rfl
    · refine ties_modify fun y found' => ?_
      obtain rfl : x = y := Option.some.inj (found.symm.trans found')
      exact Slots.without_takeCleanup _ _ _

/-- A flush of effects is over, or turns to the next one. -/
theorem handled_effects {i : Nat} {effects : List (Nat × Program H)}
    (top : w.stack = .effects i effects :: stack) (step : w.step? = some w') : Handled w w' := by
  cases effects with
  | nil =>
    simp only [step?, top, Option.some.injEq] at step
    exact step ▸ .ends top rfl rfl
  | cons effect rest =>
    obtain ⟨slot, effect⟩ := effect
    obtain ⟨left, ties⟩ := step_turn top step
    exact .turns top left ties

end Step

theorem handled (step : w.step? = some w') : Handled w w' := by
  cases top : w.stack with
  | nil =>
    rw [step?, top] at step
    cases step
  | cons activity stack =>
    cases activity with
    | checkpoint ran next keep => exact handled_checkpoint top step
    | program p keep =>
      simp only [step?, top, Option.some.injEq] at step
      exact step ▸ handled_program top
    | flush q =>
      simp only [step?, top, Option.some.injEq] at step
      exact step ▸ handled_flush top
    | render i rest computed cursor purpose =>
      simp only [step?, top, Option.some.injEq] at step
      exact step ▸ handled_render top
    | effects i rest => exact handled_effects top step

end World

end LiveMarkup
