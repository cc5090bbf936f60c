import LiveMarkup.Proofs.Element.Attributes
import LiveMarkup.Proofs.Live.Handovers
import LiveMarkup.Proofs.Live.Ties

/-!
# What elements hold

An element holds attributes, state fields, the values of its hook slots, and the effects that wait
in them. `Altered` says once what a move does to all that: something is written under one name or in
one slot, an effect is put into a slot, the attributes that are missing are given a value, or the
effects of one kind are taken to be run. So what has been written is there until something else is
written in the same place, whoever asks and however often elements are connected and disconnected
meanwhile.
-/

namespace LiveMarkup

variable {H : Type}

/-- What a call or a hook writes into an element, and where. -/
inductive Write where
  | attr (key : Text) (value : Json)
  | field (name : Text) (value : Json)
  | slot (slot : Nat) (value : SlotValue)

/-- A place of an element that is written to. -/
inductive Spot where
  | attr (key : Text)
  | field (name : Text)
  | slot (slot : Nat)

def Write.spot : Write → Spot
  | .attr key _ => .attr key
  | .field name _ => .field name
  | .slot k _ => .slot k

/-- What an element holds. -/
structure Contents (H : Type) where
  attrs : Keyed Json
  state : Keyed Json
  values : Places SlotValue
  layout : Places (Program H)
  passive : Places (Program H)

namespace Contents

variable {c : Contents H} {write other : Write}

/-- What has been written is there. -/
def Holds (c : Contents H) : Write → Prop
  | .attr key value => Keyed.get? c.attrs key = some value
  | .field name value => Keyed.get? c.state name = some value
  | .slot slot value => Places.get? c.values slot = some value

/-- Something is written, if it is. -/
def put (c : Contents H) : Option Write → Contents H
  | none => c
  | some (.attr key value) => { c with attrs := Keyed.insert c.attrs key value }
  | some (.field name value) => { c with state := Keyed.insert c.state name value }
  | some (.slot slot value) => { c with values := Places.set c.values slot (some value) }

/-- The effects of one kind that wait to be run. -/
def effects (c : Contents H) : EffectKind → Places (Program H)
  | .layout => c.layout
  | .passive => c.passive

/-- Other effects of one kind wait to be run. -/
def withEffects (c : Contents H) (kind : EffectKind) (effects : Places (Program H)) : Contents H :=
  match kind with
  | .layout => { c with layout := effects }
  | .passive => { c with passive := effects }

/-- An effect is put into a slot, if it is. -/
def queue (c : Contents H) (slot : Nat) : Option (EffectKind × Program H) → Contents H
  | none => c
  | some (kind, effect) => c.withEffects kind (Places.set (c.effects kind) slot (some effect))

theorem holds_put : (c.put (some write)).Holds write := by
  cases write with
  | attr key value => exact (Keyed.get?_insert _ _ _ _).trans (if_pos rfl)
  | field name value => exact (Keyed.get?_insert _ _ _ _).trans (if_pos rfl)
  | slot slot value => exact (Places.get?_set _ _ _ _).trans (if_pos rfl)

/-- Writing elsewhere leaves what has been written alone. -/
theorem Holds.put (holds : c.Holds write) (apart : other.spot ≠ write.spot) :
    (c.put (some other)).Holds write := by
  cases write with
  | attr key value =>
    cases other with
    | attr key' value' =>
      have ne : key' ≠ key := fun same => apart (congrArg Spot.attr same)
      exact (Keyed.get?_insert _ _ _ _).trans ((if_neg ne).trans holds)
    | _ => exact holds
  | field name value =>
    cases other with
    | field name' value' =>
      have ne : name' ≠ name := fun same => apart (congrArg Spot.field same)
      exact (Keyed.get?_insert _ _ _ _).trans ((if_neg ne).trans holds)
    | _ => exact holds
  | slot slot value =>
    cases other with
    | slot slot' value' =>
      have ne : slot' ≠ slot := fun same => apart (congrArg Spot.slot same)
      exact (Places.get?_set _ _ _ _).trans ((if_neg ne).trans holds)
    | _ => exact holds

theorem holds_withEffects {kind : EffectKind} {effects : Places (Program H)} :
    (c.withEffects kind effects).Holds write ↔ c.Holds write := by
  cases kind with
  | layout => cases write with
    | _ => exact .rfl
  | passive => cases write with
    | _ => exact .rfl

theorem holds_queue {slot : Nat} {queued : Option (EffectKind × Program H)} :
    (c.queue slot queued).Holds write ↔ c.Holds write := by
  cases queued with
  | none => exact .rfl
  | some queued => exact holds_withEffects

@[simp] theorem effects_put (kind : EffectKind) (write : Option Write) :
    (c.put write).effects kind = c.effects kind := by
  cases write with
  | none => rfl
  | some write =>
    cases write with
    | _ =>
      cases kind with
      | _ => rfl

end Contents

/-! ## Hooks -/

def Slots.contents (s : Slots H) (attrs state : Keyed Json) : Contents H :=
  ⟨attrs, state, s.values, s.layout, s.passive⟩

/-- No cleanup is looked at. -/
theorem Slots.contents_takeCleanup (s : Slots H) (slot : Nat) (attrs state : Keyed Json) :
    (s.takeCleanup slot).2.contents attrs state = s.contents attrs state := by
  unfold takeCleanup
  split
  · rfl
  · rfl

/-- The first value of a type, from what a program has ended with. -/
def Slots.firstValue (s : Slots H) (type : ValueType) (v : Option SlotValue) : SlotValue :=
  match type with
  | .json => .json ((v.bind SlotValue.json?).getD .null)
  | .int => .int ((v.bind SlotValue.int?).getD 0)
  | .cell => .cell s.cells.length

/-- What an instance holds. -/
def Instance.contents (x : Instance H) : Contents H := x.slots.contents x.attrs x.state

/-- A first value is put into its slot, and the rest is held. -/
theorem Instance.contents_putFirst (x : Instance H) (slot : Nat) (type : ValueType)
    (v : Option SlotValue) : ({ x with slots := x.slots.putFirst slot type v }).contents =
      x.contents.put (some (.slot slot (x.slots.firstValue type v))) := by
  cases type with
  | _ => rfl

namespace RenderState

/-- What a render works on. -/
def contents (s : RenderState H) : Contents H := s.slots.contents s.attrs s.state

/-- What a hook writes. -/
def writes? (s : RenderState H) : Hook H → Option Write
  | .setState name value => some (.field name value)
  | .useMemo deps compute =>
    match if s.slots.depsMatch s.cursor deps then s.slots.value? s.cursor SlotValue.json? else none
      with
    | some _ => none
    | none => some (.slot s.cursor (.json (compute s.host).1))
  | .useCallback deps _ =>
    match if s.slots.depsMatch s.cursor deps then s.slots.value? s.cursor SlotValue.callback?
      else none with
    | some _ => none
    | none => some (.slot s.cursor (.callback s.slots.callbacks.length))
  | .view | .useState _ | .useInt _ | .useCell _ | .readCell _ | .writeCell _ _
  | .useEffect _ _ _ => none

/-- The effect that a hook puts into its slot. -/
def queues? (s : RenderState H) : Hook H → Option (EffectKind × Program H)
  | .useEffect kind none effect => some (kind, effect)
  | .useEffect kind (some deps) effect =>
    if s.slots.depsMatch s.cursor deps then none else some (kind, effect)
  | _ => none

/-- A hook writes and puts an effect into its slot, and holds the rest. -/
theorem contents_answer (s : RenderState H) (h : Hook H) :
    (s.answer h).2.contents = (s.contents.put (s.writes? h)).queue s.cursor (s.queues? h) := by
  cases h with
  | view => rfl
  | setState name value => rfl
  | readCell cell => rfl
  | writeCell cell n => rfl
  | useState init => rfl
  | useInt init => rfl
  | useCell init => rfl
  | useMemo deps compute =>
    simp only [answer, writes?]
    cases if s.slots.depsMatch s.cursor deps then s.slots.value? s.cursor SlotValue.json?
      else none with
    | none => rfl
    | some a => rfl
  | useCallback deps body =>
    simp only [answer, writes?]
    cases if s.slots.depsMatch s.cursor deps then s.slots.value? s.cursor SlotValue.callback?
      else none with
    | none => rfl
    | some a => rfl
  | useEffect kind deps effect =>
    cases deps with
    | none =>
      cases kind with
      | _ => rfl
    | some deps =>
      simp only [answer, queues?]
      split
      · rfl
      · cases kind with
        | _ => rfl

/-- A hook that writes puts no effect into its slot. -/
theorem queues?_eq_none {s : RenderState H} {h : Hook H} {write : Write}
    (writes : s.writes? h = some write) : s.queues? h = none := by
  cases h with
  | useEffect kind deps effect => cases writes
  | _ => rfl

/-- A hook that writes has no first value to wait for. -/
theorem pending?_of_writes {s : RenderState H} {h : Hook H} {write : Write}
    (writes : s.writes? h = some write) : s.slots.pending? s.cursor h = none := by
  cases h with
  | useState init | useInt init | useCell init => cases writes
  | _ => rfl

theorem pending?_of_queues {s : RenderState H} {h : Hook H} {queued : EffectKind × Program H}
    (queues : s.queues? h = some queued) : s.slots.pending? s.cursor h = none := by
  cases h with
  | useEffect kind deps effect => rfl
  | _ => cases queues

end RenderState

namespace World

variable {w w' v : World H} {i j slot : Nat} {x : Instance H} {write : Write}

/-- What all instances hold. -/
def contents (w : World H) : List (Contents H) := w.instances.map Instance.contents

/-- Instance `i` holds what has been written. -/
def Holds (w : World H) (i : Nat) (write : Write) : Prop :=
  ∃ c, w.contents[i]? = some c ∧ c.Holds write

/-- What a hook of instance `i`, which is `x`, works on. -/
def rendering (w : World H) (i : Nat) (x : Instance H) (computed : Keyed Json) (cursor : Nat) :
    RenderState H :=
  ⟨x.element.name, x.attrs, x.state, x.slots, computed, some i, cursor, w.host⟩

theorem contents_of_found (found : w.instances[i]? = some x) :
    w.contents[i]? = some x.contents := by
  rw [contents, List.getElem?_map, found]
  rfl

/-! ## What leaves the contents alone -/

theorem contents_modify {change : Instance H → Instance H} {changed : Contents H → Contents H}
    (look : ∀ x, w.instances[i]? = some x → (change x).contents = changed x.contents) :
    (w.modify i change).contents = w.contents.modify i changed :=
  map_modify look

theorem contents_modify_keep {change : Instance H → Instance H}
    (keeps : ∀ x, w.instances[i]? = some x → (change x).contents = x.contents) :
    (w.modify i change).contents = w.contents := by
  have look : ∀ x, w.instances[i]? = some x → (change x).contents = id x.contents := keeps
  rw [contents_modify look, List.modify_id]

theorem contents_congr (same : w'.instances = w.instances) : w'.contents = w.contents :=
  congrArg (List.map Instance.contents) same

theorem instances_schedule (w : World H) (wasEmpty : Bool) (runner : Runner) (q : QueueId) :
    (w.schedule wasEmpty runner q).instances = w.instances := by
  unfold schedule
  split
  · exact (undisturbed_queue _ _ _).instances
  · rfl

theorem instances_pushEffects (w : World H) (i : Nat) :
    (w.pushEffects i).instances = w.instances :=
  (instances_schedule _ _ _ _).trans
    (instances_schedule { w with layout := (w.layout.push i).2 } _ _ _)

theorem instances_pushCustom (w : World H) (k : Nat) (p : Program H) :
    (w.pushCustom k p).instances = w.instances := by
  unfold pushCustom
  split
  · rfl
  · exact instances_schedule _ _ _ _

theorem instances_report (w : World H) (problems : List AttrProblem) :
    (w.report problems).instances = w.instances := by
  unfold report
  split
  · rfl
  · rfl

theorem contents_update (w : World H) (i : Nat) : (w.update i).contents = w.contents := by
  unfold update
  split
  · rfl
  · split
    · rfl
    · rw [contents, pushRender, instances_schedule]
      exact contents_modify_keep fun _ _ => rfl

/-- Making an element leaves the others alone. -/
theorem contents_create {c : Contents H} {e : Element H} (found : w.contents[i]? = some c) :
    (w.create e).contents[i]? = some c := by
  obtain ⟨lt, -⟩ := List.getElem?_eq_some_iff.mp found
  rw [contents, create, List.map_append]
  exact (List.getElem?_append_left lt).trans found

/-- The change of one instance, some notices, and a request for a render. -/
theorem contents_modify_update {change : Instance H → Instance H}
    {changed : Contents H → Contents H}
    (look : ∀ x, w.instances[i]? = some x → (change x).contents = changed x.contents)
    (problems : List AttrProblem) :
    (((w.modify i change).report problems).update i).contents = w.contents.modify i changed := by
  rw [contents_update, contents, instances_report]
  exact contents_modify look

/-! ## Moves -/

/-- A move writes into instance `i`. -/
inductive Stores (i : Nat) : Write → World H → World H → Prop
  | setAttribute {name : Text} {raw : Option Text} {next : Program H}
    {keep : Option Keep} {stack : List (Activity H)} {x : Instance H} {w w' : World H}
    (top : w.stack = .program (.request i (.setAttribute name raw) next) keep :: stack)
    (held : w.held? i = some x) (step : w.step? = some w') :
    Stores i (.attr (x.element.coerceAttr name raw).1 (x.element.coerceAttr name raw).2.1) w w'
  | setState {name : Text} {value : Json} {next : Program H} {keep : Option Keep}
    {stack : List (Activity H)} {x : Instance H} {w w' : World H}
    (top : w.stack = .program (.request i (.setState name value) next) keep :: stack)
    (held : w.held? i = some x) (step : w.step? = some w') : Stores i (.field name value) w w'
  /-- Through a state handle. -/
  | setField {name : Text} {value : Json} {next : Program H} {keep : Option Keep}
    {stack : List (Activity H)} {x : Instance H} {w w' : World H}
    (top : w.stack = .program (.setField i name value next) keep :: stack)
    (alive : w.alive? i = some x) (step : w.step? = some w') : Stores i (.field name value) w w'
  /-- What a setter or a dispatch function has come to makes a difference. -/
  | change {slot : Nat} {current v : SlotValue} {stack : List (Activity H)} {x : Instance H}
    {w w' : World H} (top : w.stack = .program (.give v) (some (.change i slot current)) :: stack)
    (found : w.instances[i]? = some x) (differs : current.differs v = true)
    (step : w.step? = some w') : Stores i (.slot slot v) w w'
  /-- The program for the first value of a slot has ended. -/
  | first {slot : Nat} {type : ValueType} {p : Program H} {v : Option SlotValue}
    {stack : List (Activity H)} {x : Instance H} {w w' : World H}
    (top : w.stack = .program p (some (.first i slot type)) :: stack) (ends : p.Ends v)
    (found : w.instances[i]? = some x) (step : w.step? = some w') :
    Stores i (.slot slot (x.slots.firstValue type v)) w w'
  /-- By a hook. -/
  | hook {h : Hook H} {next : h.Answer → Render H} {computed : Keyed Json} {cursor : Nat}
    {purpose : Purpose H} {stack : List (Activity H)} {x : Instance H} {write : Write}
    {w w' : World H} (top : w.stack = .render i (.hook h next) computed cursor purpose :: stack)
    (found : w.instances[i]? = some x)
    (writes : (w.rendering i x computed cursor).writes? h = some write)
    (step : w.step? = some w') : Stores i write w w'

/-- A hook puts an effect into its slot. -/
inductive QueuesEffect (kind : EffectKind) (i slot : Nat) (effect : Program H) (w w' : World H) :
    Prop
  | intro {h : Hook H} {next : h.Answer → Render H} {computed : Keyed Json} {purpose : Purpose H}
    {stack : List (Activity H)} {x : Instance H}
    (top : w.stack = .render i (.hook h next) computed slot purpose :: stack)
    (found : w.instances[i]? = some x)
    (queues : (w.rendering i x computed slot).queues? h = some (kind, effect))
    (step : w.step? = some w')

/-- What a move does to what instances hold. -/
inductive Altered (w w' : World H) : Prop
  | keeps (same : w'.contents = w.contents)
  | writes {i : Nat} {write : Write} (stores : Stores i write w w')
  | queues {kind : EffectKind} {i slot : Nat} {effect : Program H}
    (queues : QueuesEffect kind i slot effect w w')
  /-- An element is connected, and attributes that it lacks are given a value. -/
  | fills {i : Nat} {x : Instance H} {next : Program H} {keep : Option Keep}
    {stack : List (Activity H)}
    (top : w.stack = .program (.request i .connect next) keep :: stack)
    (held : w.held? i = some x)
    (contents : w'.contents = w.contents.modify i fun c =>
      { c with attrs := (x.element.fillMissing c.attrs).1 })
  /-- A flush takes the effects of one kind. -/
  | takes {i : Nat} {kind : EffectKind} {x : Instance H}
    (hands : Hands (effectQueue kind) (.element i) w w') (found : w.instances[i]? = some x)
    (here : x.connected = true)
    (left : w'.stack = .effects i (Places.entries (x.contents.effects kind)) :: w.stack)
    (contents : w'.contents = w.contents.modify i (·.withEffects kind []))
  | creates {e : Element H} (created : w' = w.create e)

section Step

variable {stack : List (Activity H)} {p next : Program H} {keep : Option Keep}

/-! ### Writes -/

theorem contents_hook {cursor : Nat} {h : Hook H} {next : h.Answer → Render H}
    {computed : Keyed Json} {purpose : Purpose H}
    (top : w.stack = .render i (.hook h next) computed cursor purpose :: stack)
    (found : w.instances[i]? = some x) (ready : x.slots.pending? cursor h = none)
    (step : w.step? = some w') :
    w'.contents = w.contents.modify i fun c =>
      (c.put ((w.rendering i x computed cursor).writes? h)).queue cursor
        ((w.rendering i x computed cursor).queues? h) := by
  -- what the hook has made of the element is all that a later request leaves there
  have answered : ∀ y, w.instances[i]? = some y →
      ({ y with
        attrs := ((w.rendering i x computed cursor).answer h).2.attrs
        state := ((w.rendering i x computed cursor).answer h).2.state
        slots := ((w.rendering i x computed cursor).answer h).2.slots }).contents =
        (y.contents.put ((w.rendering i x computed cursor).writes? h)).queue cursor
          ((w.rendering i x computed cursor).queues? h) := by
    intro y there
    obtain rfl : x = y := Option.some.inj (found.symm.trans there)
    exact (w.rendering i x computed cursor).contents_answer h
  simp only [step?, top, stepRender, found, ready, Option.some.injEq] at step
  subst step
  cases h with
  | setState name value => exact (contents_update _ _).trans (contents_modify answered)
  | _ => exact contents_modify answered

/-- A render goes on with the answer to its hook. -/
theorem stack_hook {cursor : Nat} {h : Hook H} {next : h.Answer → Render H}
    {computed : Keyed Json} {purpose : Purpose H}
    (top : w.stack = .render i (.hook h next) computed cursor purpose :: stack)
    (found : w.instances[i]? = some x) (ready : x.slots.pending? cursor h = none)
    (step : w.step? = some w') :
    w'.stack = .render i (next ((w.rendering i x computed cursor).answer h).1) computed
      ((w.rendering i x computed cursor).answer h).2.cursor purpose :: stack := by
  simp only [step?, top, stepRender, found, ready, Option.some.injEq] at step
  subst step
  cases h with
  | setState name value => exact (kept_update _ _).stack
  | _ => rfl

/-- A hook whose first value is not there waits for the program that makes it. -/
theorem stack_pending {cursor : Nat} {h : Hook H} {next : h.Answer → Render H}
    {computed : Keyed Json} {purpose : Purpose H} {type : ValueType} {init : Program H}
    (top : w.stack = .render i (.hook h next) computed cursor purpose :: stack)
    (found : w.instances[i]? = some x) (pending : x.slots.pending? cursor h = some (type, init))
    (step : w.step? = some w') :
    w'.stack = .program init (some (.first i cursor type)) :: w.stack := by
  simp only [step?, top, stepRender, found, pending, Option.some.injEq] at step
  subst step
  exact congrArg _ top.symm

theorem Stores.contents_eq (stores : Stores i write w w') :
    w'.contents = w.contents.modify i (·.put (some write)) := by
  cases stores with
  | @setAttribute name raw next keep stack x _ _ top held step =>
    have still : ({ w with stack }.start next keep).held? i = some x := held
    simp only [step?_program top, stepProgram, still, Option.some.injEq] at step
    subst step
    simp only [request]
    split
    · refine contents_modify_update (fun _ _ => ?_) _
      rfl
    · refine (contents_congr (instances_report _ _)).trans (contents_modify fun _ _ => ?_)
      rfl
  | @setState name value next keep stack x _ _ top held step =>
    have still : ({ w with stack }.start next keep).held? i = some x := held
    simp only [step?_program top, stepProgram, still, Option.some.injEq] at step
    subst step
    refine (contents_update _ _).trans (contents_modify fun _ _ => ?_)
    rfl
  | @setField name value next keep stack x _ _ top alive step =>
    simp only [step?_program top, stepProgram, alive?_start top, alive, Option.some.injEq] at step
    subst step
    refine (contents_update _ _).trans (contents_modify fun _ _ => ?_)
    rfl
  | @change slot current v stack x _ _ top found differs step =>
    rw [step?_ends top (.give v) rfl, Option.some.injEq] at step
    subst step
    simp only [settle, Option.filter, differs, if_true]
    refine (contents_update _ _).trans (contents_modify fun _ _ => ?_)
    rfl
  | @first slot type p v stack x _ _ top ends found step =>
    rw [step?_ends top ends rfl, Option.some.injEq] at step
    subst step
    refine contents_modify fun y there => ?_
    obtain rfl : x = y := Option.some.inj (found.symm.trans there)
    exact x.contents_putFirst slot type v
  | hook top found writes step =>
    rw [contents_hook top found (RenderState.pending?_of_writes writes) step, writes,
      RenderState.queues?_eq_none writes]
    rfl

theorem QueuesEffect.contents_eq {kind : EffectKind} {effect : Program H}
    (queues : QueuesEffect kind i slot effect w w') :
    w'.contents = w.contents.modify i (·.queue slot (some (kind, effect))) := by
  obtain @⟨h, next, computed, purpose, stack, x, top, found, queues, step⟩ := queues
  rw [contents_hook top found (RenderState.pending?_of_queues queues) step, queues]
  cases writes : (w.rendering i x computed slot).writes? h with
  | none => rfl
  | some write =>
    rw [RenderState.queues?_eq_none writes] at queues
    cases queues

/-! ### Steps -/

theorem altered_request {r : Request} (top : w.stack = .program (.request i r next) keep :: stack)
    (held : w.held? i = some x) (step : w.step? = some w') : Altered w w' := by
  have stepped := step
  have still : ({ w with stack }.start next keep).held? i = some x := held
  simp only [step?_program top, stepProgram, still, Option.some.injEq] at step
  have found := found_of_held held
  subst step
  cases r with
  | connect =>
    simp only [request]
    split
    · exact .keeps rfl
    · refine .fills top held (contents_modify_update (fun y there => ?_) _)
      obtain rfl : x = y := Option.some.inj (found.symm.trans there)
      rfl
  | disconnect =>
    simp only [request]
    split
    · refine .keeps (contents_modify_keep fun y there => ?_)
      obtain rfl : x = y := Option.some.inj (found.symm.trans there)
      rfl
    · exact .keeps rfl
  | update => exact .keeps (contents_update _ _)
  | setAttribute name raw => exact .writes (.setAttribute top held stepped)
  | setState name value => exact .writes (.setState top held stepped)

theorem altered_program (top : w.stack = .program p keep :: stack) (step : w.step? = some w') :
    Altered w w' := by
  cases programStep top step with
  | quiet same => exact .keeps (contents_congr same.instances)
  | handsBack left => exact .keeps (left ▸ contents_modify_keep fun _ _ => rfl)
  | request top held => exact altered_request top held step
  | setField top alive => exact .writes (.setField top alive step)
  | @first i slot type p v stack top ends =>
    cases found : w.instances[i]? with
    | some x => exact .writes (.first top ends found step)
    | none =>
      rw [step?_ends top ends rfl, Option.some.injEq] at step
      subst step
      refine .keeps (contents_modify_keep fun y there => ?_)
      cases found.symm.trans there
  | change top found differs => exact .writes (.change top found differs step)
  | push top found left => exact .keeps (left ▸ contents_congr (instances_pushCustom _ _ _))

theorem contents_finishRender (w : World H) (i : Nat) (result : TemplateResult)
    (purpose : Purpose H) : (w.finishRender i result purpose).contents = w.contents := by
  have counted : (w.modify i fun x => { x with renders := x.renders + 1 }).contents =
      w.contents := contents_modify_keep fun _ _ => rfl
  cases purpose with
  | query next keep => exact counted
  | pass =>
    have ended {v : World H} (same : v.contents = w.contents) :
        ((v.modify i ({ · with dirty := false })).pushEffects i).contents = w.contents := by
      refine (contents_congr (instances_pushEffects _ i)).trans ?_
      refine Eq.trans (contents_modify_keep ?_) same
      exact fun _ _ => rfl
    simp only [finishRender]
    split
    · refine ended (Eq.trans (contents_modify_keep ?_) counted)
      exact fun _ _ => rfl
    · split
      · exact ended counted
      · exact ended counted

theorem altered_render {cursor : Nat} {rest : Render H} {computed : Keyed Json}
    {purpose : Purpose H} (top : w.stack = .render i rest computed cursor purpose :: stack)
    (step : w.step? = some w') : Altered w w' := by
  have stepped := step
  simp only [step?, top, Option.some.injEq] at step
  subst step
  cases rest with
  | finish result => exact .keeps (contents_finishRender _ _ _ _)
  | peek next => exact .keeps rfl
  | poke change next => exact .keeps rfl
  | perform p next => exact .keeps rfl
  | hook h next =>
    cases found : w.instances[i]? with
    | none =>
      simp only [stepRender, found]
      exact .keeps rfl
    | some x =>
      cases pending : x.slots.pending? cursor h with
      | some first =>
        simp only [stepRender, found, pending]
        exact .keeps rfl
      | none =>
        have contents := contents_hook top found pending stepped
        cases writes : (w.rendering i x computed cursor).writes? h with
        | some write => exact .writes (.hook top found writes stepped)
        | none =>
          cases queues : (w.rendering i x computed cursor).queues? h with
          | some queued => exact .queues ⟨top, found, queues, stepped⟩
          | none =>
            rw [writes, queues] at contents
            exact .keeps (contents.trans (List.modify_id _ _))

theorem contents_startEffects (kind : EffectKind) (found : w.instances[i]? = some x)
    (here : x.connected = true) :
    (w.startEffects kind i).contents = w.contents.modify i (·.withEffects kind []) ∧
      (w.startEffects kind i).stack =
        .effects i (Places.entries (x.contents.effects kind)) :: w.stack := by
  simp only [startEffects, found, if_pos here]
  refine ⟨?_, ?_⟩
  · refine contents_modify fun y there => ?_
    obtain rfl : x = y := Option.some.inj (found.symm.trans there)
    cases kind with
    | _ => rfl
  · cases kind with
    | _ => rfl

theorem startEffects_eq_self {kind : EffectKind} (gone : w.isConnected i = false) :
    w.startEffects kind i = w := by
  unfold startEffects
  split
  · rfl
  · next x found =>
    have here : x.connected = false := by simpa [isConnected, found] using gone
    rw [if_neg (Bool.eq_false_iff.mp here)]

theorem altered_startEffects (kind : EffectKind)
    (hands : Hands (effectQueue kind) (.element i) w (v.startEffects kind i))
    (instances : v.instances = w.instances) (same : v.stack = w.stack) :
    Altered w (v.startEffects kind i) := by
  cases here : w.isConnected i with
  | false =>
    have gone : v.isConnected i = false := by rw [isConnected, instances, ← isConnected, here]
    rw [startEffects_eq_self gone]
    exact .keeps (contents_congr instances)
  | true =>
    obtain ⟨x, found, connected⟩ : ∃ x, w.instances[i]? = some x ∧ x.connected = true := by
      simpa [isConnected, Option.any_eq_true] using here
    obtain ⟨contents, left⟩ :=
      contents_startEffects (w := v) kind (instances ▸ found) connected
    rw [same] at left
    rw [contents_congr instances] at contents
    exact .takes hands found connected left contents

theorem altered_flush {q : QueueId} (top : w.stack = .flush q :: stack) (step : w.step? = some w') :
    Altered w w' := by
  have stepped := step
  simp only [step?, top, Option.some.injEq] at step
  cases q with
  | renders =>
    subst step
    simp only [stepFlush]
    split
    · exact .keeps rfl
    · split
      · exact .keeps rfl
      · split
        · exact .keeps rfl
        · exact .keeps (contents_modify_keep fun _ _ => rfl)
  | layout =>
    cases pick : w.layout.pick with
    | none =>
      simp only [stepFlush, pick] at step
      exact step ▸ .keeps rfl
    | some picked =>
      obtain ⟨i, layout⟩ := picked
      simp only [stepFlush, pick] at step
      subst step
      exact altered_startEffects .layout
        ⟨top, rfl, RunQueue.pick_map_some Item.element pick, stepped⟩ rfl top.symm
  | passive =>
    cases pick : w.passive.pick with
    | none =>
      simp only [stepFlush, pick] at step
      exact step ▸ .keeps rfl
    | some picked =>
      obtain ⟨i, passive⟩ := picked
      simp only [stepFlush, pick] at step
      subst step
      exact altered_startEffects .passive
        ⟨top, rfl, RunQueue.pick_map_some Item.element pick, stepped⟩ rfl top.symm
  | custom k =>
    subst step
    simp only [stepFlush]
    split
    · exact .keeps rfl
    · exact .keeps rfl

end Step

theorem altered_step (step : w.step? = some w') : Altered w w' := by
  cases top : w.stack with
  | nil =>
    rw [step?, top] at step
    cases step
  | cons activity stack =>
    cases activity with
    | program p keep => exact altered_program top step
    | flush q => exact altered_flush top step
    | render i rest computed cursor purpose => exact altered_render top step
    | checkpoint ran next keep =>
      rcases step_checkpoint top step with ⟨job, microtasks, -, rfl⟩ | ⟨-, rfl⟩
      · exact .keeps rfl
      · exact .keeps rfl
    | effects i effects =>
      simp only [step?, top, Option.some.injEq] at step
      subst step
      cases effects with
      | nil => exact .keeps rfl
      | cons effect rest =>
        obtain ⟨slot, effect⟩ := effect
        simp only [stepEffects]
        split
        · exact .keeps rfl
        · next x found =>
          -- taking a cleanup leaves the values and the other effects alone
          refine .keeps (contents_modify_keep fun y there => ?_)
          obtain rfl : x = y := Option.some.inj (found.symm.trans there)
          exact x.slots.contents_takeCleanup slot _ _

theorem altered (next : Next w w') : Altered w w' := by
  cases next with
  | step step => exact altered_step step
  | create e => exact .creates rfl
  | drop i => exact .keeps (contents_modify_keep fun _ _ => rfl)
  | call p rest => exact .keeps rfl

/-! ## What has been written -/

theorem holds_modify {changed : Contents H → Contents H}
    (contents : w'.contents = w.contents.modify j changed) (holds : w.Holds i write)
    (keeps : j = i → ∀ c, c.Holds write → (changed c).Holds write) : w'.Holds i write := by
  obtain ⟨c, found, holds⟩ := holds
  rw [Holds, contents, List.getElem?_modify, found]
  refine ⟨_, rfl, ?_⟩
  split
  · next same => exact keeps same c holds
  · exact holds

/-- What has been written is there until something else is written in its place. -/
theorem holds_next (next : Next w w') (holds : w.Holds i write) :
    w'.Holds i write ∨ ∃ other, other.spot = write.spot ∧ Stores i other w w' := by
  cases altered next with
  | keeps same =>
    rw [Holds, same]
    exact .inl holds
  | @writes j other stores =>
    by_cases there : j = i ∧ other.spot = write.spot
    · obtain ⟨rfl, spot⟩ := there
      exact .inr ⟨other, spot, stores⟩
    · exact .inl (holds_modify stores.contents_eq holds fun same c holds =>
        holds.put fun spot => there ⟨same, spot⟩)
  | queues queues =>
    exact .inl (holds_modify queues.contents_eq holds fun _ c holds =>
      Contents.holds_queue.mpr holds)
  | @fills j x next keep stack top held contents =>
    refine .inl (holds_modify contents holds fun _ c holds => ?_)
    cases write with
    | attr key value => exact Declaration.get?_fillEach holds
    | field name value => exact holds
    | slot slot value => exact holds
  | takes hands found here left contents =>
    exact .inl (holds_modify contents holds fun _ c holds =>
      Contents.holds_withEffects.mpr holds)
  | creates created =>
    obtain ⟨c, found, holds⟩ := holds
    exact .inl ⟨c, created ▸ contents_create found, holds⟩

/-- What a move writes is there behind it. -/
theorem Stores.holds (stores : Stores i write w w') : w'.Holds i write := by
  obtain ⟨x, found⟩ : ∃ x, w.instances[i]? = some x := by
    cases stores with
    | setAttribute top held step => exact ⟨_, found_of_held held⟩
    | setState top held step => exact ⟨_, found_of_held held⟩
    | setField top alive step => exact ⟨_, found_of_alive alive⟩
    | change top found differs step => exact ⟨_, found⟩
    | first top ends found step => exact ⟨_, found⟩
    | hook top found writes step => exact ⟨_, found⟩
  rw [Holds, stores.contents_eq, List.getElem?_modify_eq, contents_of_found found]
  exact ⟨_, rfl, Contents.holds_put⟩

variable {ws : Nat → World H} {n m k : Nat}

theorem Run.holds_until (run : Run ws n) (le : m ≤ k) (within : k ≤ n)
    (holds : (ws m).Holds i write)
    (last : ∀ l, m ≤ l → l < k → ∀ other, other.spot = write.spot →
      ¬ Stores i other (ws l) (ws (l + 1))) : (ws k).Holds i write := by
  induction le with
  | refl => exact holds
  | @step k le ih =>
    have before := ih (Nat.le_of_succ_le within)
      fun l lower upper => last l lower (Nat.lt_succ_of_lt upper)
    rcases holds_next (run.next k within) before with still | ⟨other, spot, overwrites⟩
    · exact still
    · exact absurd overwrites (last k le (Nat.lt_succ_self k) other spot)

/-- Of all that is written in its place before the move `k`, this is the last. -/
inductive IsLatest (ws : Nat → World H) (i : Nat) (write : Write) (k : Nat) : Prop
  /-- Nothing is written there after the move `m`. -/
  | stored {m : Nat} (before : m < k) (stores : Stores i write (ws m) (ws (m + 1)))
    (last : ∀ l, m < l → l < k → ∀ other, other.spot = write.spot →
      ¬ Stores i other (ws l) (ws (l + 1)))
  /-- Nothing is written there in the run. -/
  | kept (holds : (ws 0).Holds i write)
    (last : ∀ l < k, ∀ other, other.spot = write.spot → ¬ Stores i other (ws l) (ws (l + 1)))

/-- What has been written last in a place is there. -/
theorem Run.holds_of_isLatest (run : Run ws n) (within : k ≤ n) (latest : IsLatest ws i write k) :
    (ws k).Holds i write := by
  cases latest with
  | stored before stores last => exact run.holds_until before within stores.holds last
  | kept holds last =>
    exact run.holds_until (Nat.zero_le k) within holds fun l _ upper => last l upper

end World

end LiveMarkup
