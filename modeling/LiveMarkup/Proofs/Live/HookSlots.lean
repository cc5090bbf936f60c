import LiveMarkup.Proofs.Live.Contents

/-!
# What becomes of a hook slot

Four kinds of moves matter to the value of a slot: the program for its first value ends
(`MakesFirst`), the program of a setter or a dispatch function that was given out for the slot comes
to a value (`Settles`), and a memo or a callback returns what it has made (`Returns`). All other
moves leave it alone (`slotValue?_of_quiet`); that a setter is called is one of these (`Calls`).
-/

namespace LiveMarkup

variable {H : Type}

/-! ## Changes of a value -/

namespace SlotValue

/-- What is in a slot when the function of a setter has made `next` of `v`: what is equal to the
value does not take its place. -/
def revised (v next : SlotValue) : SlotValue := if v.differs next then next else v

/-- A cell is not for setters. -/
theorem revised_cell (cell : Nat) (next : SlotValue) : revised (.cell cell) next = .cell cell := rfl

end SlotValue

/-! ## Kinds of hooks -/

/-- The hooks that take a slot. -/
inductive SlotKind where
  | json
  | int
  | cell
  | memo
  | callback
  | effect (kind : EffectKind)
  deriving DecidableEq

namespace SlotKind

/-- The value of a slot is of the type that hooks of the kind have. -/
def fits : SlotKind → SlotValue → Bool
  | .json, .json _ | .int, .int _ | .cell, .cell _ | .memo, .json _ | .callback, .callback _ => true
  | _, _ => false

/-- Hooks of the kind leave a value in the slot that is there. -/
def keeps : SlotKind → Bool
  | .json | .int | .cell => true
  | .memo | .callback | .effect _ => false

theorem fits_revised {kind : SlotKind} {v : SlotValue} (fits : kind.fits v = true)
    (next : SlotValue) : kind.fits (v.revised next) = true := by
  unfold SlotValue.revised
  split
  · next differs =>
    cases v with
    | json j =>
      cases next with
      | json j' =>
        cases kind with
        | json | memo => rfl
        | _ => cases fits
      | _ => cases differs
    | int n =>
      cases next with
      | int n' =>
        cases kind with
        | int => rfl
        | _ => cases fits
      | _ => cases differs
    | _ => cases differs
  · exact fits

end SlotKind

namespace Hook

def kind? : Hook H → Option SlotKind
  | .useState _ => some .json
  | .useInt _ => some .int
  | .useCell _ => some .cell
  | .useMemo _ _ => some .memo
  | .useCallback _ _ => some .callback
  | .useEffect kind _ _ => some (.effect kind)
  | .view | .setState _ _ | .readCell _ | .writeCell _ _ => none

/-- The value of its slot that a hook returns. -/
def returned? : (h : Hook H) → h.Answer → Option SlotValue
  | .useState _, answer => some (.json answer.1)
  | .useInt _, answer => some (.int answer.1)
  | .useCell _, cell => some (.cell cell)
  | .useMemo _ _, j => some (.json j)
  | .useCallback _ _, callback => some (.callback callback)
  | .view, _ | .setState _ _, _ | .readCell _, _ | .writeCell _ _, _ | .useEffect _ _ _, _ => none

/-- The slot that the setter or the dispatch function is for that a hook gives out. -/
def handle? : (h : Hook H) → h.Answer → Option Nat
  | .useState _, answer => some answer.2
  | .useInt _, answer => some answer.2
  | _, _ => none

/-- Only a hook that takes a slot returns its value, and it is of the type of the hook. -/
theorem exists_kind? {h : Hook H} {answer : h.Answer} {v : SlotValue}
    (returned : h.returned? answer = some v) :
    ∃ kind, h.kind? = some kind ∧ kind.fits v = true := by
  cases h with
  | useState init | useInt init | useCell init | useMemo deps compute | useCallback deps body =>
    cases returned
    exact ⟨_, rfl, rfl⟩
  | _ => cases returned

/-- A hook that begins with a value takes a slot, and leaves what is there. -/
theorem exists_kind?_of_first? {h : Hook H} {first : ValueType × Program H}
    (begins : h.first? = some first) : ∃ kind, h.kind? = some kind ∧ kind.keeps = true := by
  cases h with
  | useState init | useInt init | useCell init => exact ⟨_, rfl, rfl⟩
  | _ => cases begins

end Hook

namespace Slots

variable {s : Slots H} {slot : Nat} {h : Hook H} {kind : SlotKind} {v : SlotValue}

theorem pending?_of_first? (nothing : h.first? = none) : s.pending? slot h = none := by
  rw [pending?, nothing]
  rfl

/-- A value of the type of a hook is what the hook waits for. -/
theorem pending?_of_fits (ofKind : h.kind? = some kind)
    (there : Places.get? s.values slot = some v) (fits : kind.fits v = true) :
    s.pending? slot h = none := by
  have holds (type : ValueType) (isOf : v.isOf type = true) : s.holds slot type = true := by
    rw [Slots.holds, there]
    exact isOf
  cases h with
  | useState init =>
    cases ofKind
    cases v with
    | json j => simp [pending?, Hook.first?, holds .json rfl]
    | _ => cases fits
  | useInt init =>
    cases ofKind
    cases v with
    | int n => simp [pending?, Hook.first?, holds .int rfl]
    | _ => cases fits
  | useCell init =>
    cases ofKind
    cases v with
    | cell c => simp [pending?, Hook.first?, holds .cell rfl]
    | _ => cases fits
  | _ => rfl

/-- A hook that does not wait finds a value in its slot. -/
theorem ne_none_of_ready (ofKind : h.kind? = some kind) (keeps : kind.keeps = true)
    (ready : s.pending? slot h = none) : Places.get? s.values slot ≠ none := by
  intro empty
  have waits {type : ValueType} : s.holds slot type = false := by rw [Slots.holds, empty]; rfl
  cases h with
  | useState init | useInt init | useCell init => simp [pending?, Hook.first?, waits] at ready
  | _ => cases ofKind <;> cases keeps

/-- The first value for a hook is of the type of the hook. -/
theorem fits_firstValue {type : ValueType} {init : Program H} (ofKind : h.kind? = some kind)
    (first : h.first? = some (type, init)) (ended : Option SlotValue) :
    kind.fits (s.firstValue type ended) = true := by
  cases h with
  | useState init | useInt init | useCell init =>
    cases ofKind
    cases first
    rfl
  | _ => cases first

end Slots

namespace RenderState

variable {s s' : RenderState H} {h : Hook H} {kind : SlotKind} {v : SlotValue}

/-- A handle is for the slot of its hook. -/
theorem handle?_answer (s : RenderState H) (h : Hook H) :
    ∀ slot ∈ h.handle? (s.answer h).1, slot = s.cursor := by
  cases h with
  | useState init => simp [answer, Hook.handle?]
  | useInt init => simp [answer, Hook.handle?]
  | _ => simp [Hook.handle?]

/-- A value in another slot is not looked at. -/
theorem answer_setValue {slot : Nat} (apart : slot ≠ s.cursor) (v : SlotValue) (h : Hook H) :
    ({ s with slots := s.slots.setValue slot v }.answer h).1 = (s.answer h).1 := by
  have seen {α : Type} (read : SlotValue → Option α) :
      (s.slots.setValue slot v).value? s.cursor read = s.slots.value? s.cursor read :=
    congrArg (Option.bind · read) ((Places.get?_set _ _ _ _).trans (if_neg apart))
  have made (deps : List Json) :
      (s.slots.setValue slot v).depsMatch s.cursor deps = s.slots.depsMatch s.cursor deps := rfl
  cases h with
  | useState init => simp only [answer, seen]
  | useInt init => simp only [answer, seen]
  | useCell init => simp only [answer, seen]
  | useMemo deps compute =>
    simp only [answer, seen, made]
    cases if s.slots.depsMatch s.cursor deps then s.slots.value? s.cursor SlotValue.json?
      else none with
    | _ => rfl
  | useCallback deps body =>
    simp only [answer, seen, made]
    cases if s.slots.depsMatch s.cursor deps then s.slots.value? s.cursor SlotValue.callback?
      else none with
    | _ => rfl
  | _ => rfl

/-- A value that is there is returned and left alone. -/
theorem returned?_of_some (ofKind : h.kind? = some kind) (keeps : kind.keeps = true)
    (there : Places.get? s.slots.values s.cursor = some v) (fits : kind.fits v = true) :
    h.returned? (s.answer h).1 = some v ∧ s.writes? h = none := by
  cases h with
  | useState init =>
    cases ofKind
    cases v with
    | json j => simp [answer, writes?, Slots.value?, there, SlotValue.json?, Hook.returned?]
    | _ => cases fits
  | useInt init =>
    cases ofKind
    cases v with
    | int n => simp [answer, writes?, Slots.value?, there, SlotValue.int?, Hook.returned?]
    | _ => cases fits
  | useCell init =>
    cases ofKind
    cases v with
    | cell k => simp [answer, writes?, Slots.value?, there, SlotValue.cell?, Hook.returned?]
    | _ => cases fits
  | _ => cases ofKind <;> cases keeps

/-- A hook writes into its own slot, and that is what it returns. -/
theorem returned?_of_writes {slot : Nat} (writes : s.writes? h = some (.slot slot v)) :
    slot = s.cursor ∧ h.returned? (s.answer h).1 = some v := by
  cases h with
  | useMemo deps compute | useCallback deps body =>
    simp only [writes?] at writes
    split at writes
    · cases writes
    · next empty =>
      cases writes
      simp [answer, Slots.newCallback, empty, Hook.returned?]
  | _ => cases writes

end RenderState

namespace World

variable {w w' : World H} {i j k l slot : Nat} {x : Instance H} {h : Hook H}
  {v u current : SlotValue}

/-- The value in a slot of an element, if the element is there. -/
def slotValue? (w : World H) (i k : Nat) : Option SlotValue :=
  (w.contents[i]?).bind fun c => Places.get? c.values k

/-- The slot that the next step gives to a hook: the element, the number and the kind. -/
def hookAt? (w : World H) : Option (Nat × Nat × SlotKind) :=
  match w.stack with
  | .render i (.hook h _) _ cursor _ :: _ => h.kind?.map fun kind => (i, cursor, kind)
  | _ => none

/-- A hook of element `i` is called that takes slot `k` if it takes one. -/
inductive CallsHook (i k : Nat) (h : Hook H) (w w' : World H) : Prop
  | intro {next : h.Answer → Render H} {computed : Keyed Json} {purpose : Purpose H}
    {stack : List (Activity H)} {x : Instance H}
    (top : w.stack = .render i (.hook h next) computed k purpose :: stack)
    (found : w.instances[i]? = some x) (step : w.step? = some w')

/-- A hook of element `i` that has taken slot `k` returns the value of the slot. -/
inductive Returns (i k : Nat) (h : Hook H) (v : SlotValue) (w w' : World H) : Prop
  | intro {next : h.Answer → Render H} {computed : Keyed Json} {purpose : Purpose H}
    {stack : List (Activity H)} {x : Instance H}
    (top : w.stack = .render i (.hook h next) computed k purpose :: stack)
    (found : w.instances[i]? = some x) (ready : x.slots.pending? k h = none)
    (returned : h.returned? ((w.rendering i x computed k).answer h).1 = some v)
    (step : w.step? = some w')

/-- The program for the first value of slot `k` of element `i` has ended, with a value or without
one, and `v` is put into the slot. -/
inductive MakesFirst (i k : Nat) (type : ValueType) (ended : Option SlotValue) (v : SlotValue)
    (w w' : World H) : Prop
  | intro {q : Program H} {stack : List (Activity H)} {x : Instance H}
    (top : w.stack = .program q (some (.first i k type)) :: stack) (ends : q.Ends ended)
    (found : w.instances[i]? = some x) (value : x.slots.firstValue type ended = v)
    (step : w.step? = some w')

/-- A setter or a dispatch function for slot `k` of element `i` is called, and the program `p` is
begun, which it runs on the value that is there. -/
inductive Calls (i k : Nat) (r : Revision (Program H)) (current : SlotValue) (p : Program H)
    (w w' : World H) : Prop
  | intro {next : Program H} {keep : Option Keep} {stack : List (Activity H)} {x : Instance H}
    (top : w.stack = .program (.revise i k r next) keep :: stack) (alive : w.alive? i = some x)
    (there : Places.get? x.slots.values k = some current) (program : r.program? current = some p)
    (step : w.step? = some w')

/-- What a setter or a dispatch function for slot `k` of element `i` runs has made `u` of the value
`current`. -/
inductive Settles (i k : Nat) (current u : SlotValue) (w w' : World H) : Prop
  | intro {stack : List (Activity H)}
    (top : w.stack = .program (.give u) (some (.change i k current)) :: stack)
    (step : w.step? = some w')

/-- The slot whose setter or dispatch function the next step calls: the element and the number. -/
def handleAt? (w : World H) : Option (Nat × Nat) :=
  match w.stack with
  | .program (.revise i k _ _) _ :: _ => some (i, k)
  | _ => none

/-- A setter or a dispatch function for slot `k` of element `i` is called, or what it runs has come
to a value. -/
inductive PartOfCall (i k : Nat) (w w' : World H) : Prop
  | begins (calls : w.handleAt? = some (i, k)) (step : w.step? = some w')
  | ends {current u : SlotValue} (settles : Settles i k current u w w')

theorem Calls.handleAt?_eq {r : Revision (Program H)} {p : Program H}
    (calls : Calls i k r current p w w') : w.handleAt? = some (i, k) := by
  obtain ⟨top, -, -, -, -⟩ := calls
  rw [handleAt?, top]

theorem CallsHook.hookAt?_eq {kind : SlotKind} (calls : CallsHook i k h w w')
    (ofKind : h.kind? = some kind) : w.hookAt? = some (i, k, kind) := by
  obtain ⟨top, -, -⟩ := calls
  rw [hookAt?, top]
  simp [ofKind]

theorem Returns.callsHook (returns : Returns i k h v w w') : CallsHook i k h w w' := by
  obtain ⟨top, found, -, -, step⟩ := returns
  exact ⟨top, found, step⟩

theorem slotValue?_of_found (found : w.instances[i]? = some x) :
    w.slotValue? i k = Places.get? x.slots.values k := by
  rw [slotValue?, contents_of_found found]
  rfl

theorem found_of_slotValue? (there : w.slotValue? i k = some v) :
    ∃ x, w.instances[i]? = some x ∧ Places.get? x.slots.values k = some v := by
  cases found : w.instances[i]? with
  | some x => exact ⟨x, rfl, (slotValue?_of_found found).symm.trans there⟩
  | none =>
    rw [slotValue?, contents, List.getElem?_map, found] at there
    cases there

theorem slotValue?_modify {changed : Contents H → Contents H}
    (contents : w'.contents = w.contents.modify j changed)
    (keeps : j = i → ∀ c, w.contents[i]? = some c →
      Places.get? (changed c).values k = Places.get? c.values k) :
    w'.slotValue? i k = w.slotValue? i k := by
  rw [slotValue?, slotValue?, contents, List.getElem?_modify]
  cases found : w.contents[i]? with
  | none => rfl
  | some c =>
    show Places.get? (if j = i then changed c else c).values k = _
    split
    · next same => exact keeps same c found
    · rfl

theorem values_withEffects {c : Contents H} {kind : EffectKind} {effects : Places (Program H)} :
    (c.withEffects kind effects).values = c.values := by
  cases kind with
  | _ => rfl

theorem values_queue {c : Contents H} {queued : Option (EffectKind × Program H)} :
    (c.queue slot queued).values = c.values := by
  cases queued with
  | none => rfl
  | some queued => exact values_withEffects

/-- An element starts with empty slots. -/
theorem slotValue?_create (w : World H) (e : Element H) (i k : Nat) :
    (w.create e).slotValue? i k = w.slotValue? i k := by
  cases found : w.contents[i]? with
  | some c => rw [slotValue?, slotValue?, contents_create found, found]
  | none =>
    have beyond : w.contents.length ≤ i := List.getElem?_eq_none_iff.mp found
    rw [slotValue?, slotValue?, found, contents, create, List.map_append, ← contents,
      List.getElem?_append_right beyond]
    cases i - w.contents.length with
    | zero => rfl
    | succ n => rfl

/-- What is written elsewhere than into the slot leaves it alone. -/
theorem slotValue?_of_stores {write : Write} (stores : Stores j write w w')
    (apart : j = i → write.spot ≠ .slot k) : w'.slotValue? i k = w.slotValue? i k := by
  refine slotValue?_modify stores.contents_eq fun same c _ => ?_
  cases write with
  | slot l v =>
    have ne : l ≠ k := fun there => apart same (congrArg Spot.slot there)
    exact (Places.get?_set _ _ _ _).trans (if_neg ne)
  | _ => rfl

theorem Stores.slotValue?_eq (stores : Stores i (.slot k v) w w') : w'.slotValue? i k = some v := by
  obtain ⟨c, there, holds⟩ := stores.holds
  rw [slotValue?, there]
  exact holds

/-- What is written into a slot has been made by a program for it, or by a hook that returns it. -/
theorem Stores.settles_or_makes_or_returns (stores : Stores i (.slot k v) w w') :
    (∃ current, Settles i k current v w w') ∨ (∃ type ended, MakesFirst i k type ended v w w') ∨
      ∃ h kind, h.kind? = some kind ∧ kind.keeps = false ∧ Returns i k h v w w' := by
  cases stores with
  | change top found differs step => exact .inl ⟨_, top, step⟩
  | first top ends found step => exact .inr (.inl ⟨_, _, top, ends, found, rfl, step⟩)
  | @hook h _ _ _ _ _ _ _ _ _ top found writes step =>
    obtain ⟨same, returned⟩ := RenderState.returned?_of_writes writes
    cases same
    have ready := RenderState.pending?_of_writes writes
    refine .inr (.inr ⟨h, ?_⟩)
    cases h with
    | useMemo deps compute | useCallback deps body =>
      exact ⟨_, rfl, rfl, top, found, ready, returned, step⟩
    | _ => cases writes

/-- Other moves leave the value of a slot alone. -/
theorem slotValue?_of_quiet (next : Next w w') (noCall : ∀ current u, ¬Settles i k current u w w')
    (noFirst : ∀ type ended v, ¬MakesFirst i k type ended v w w')
    (noHook : ∀ h kind v, h.kind? = some kind → kind.keeps = false → ¬Returns i k h v w w') :
    w'.slotValue? i k = w.slotValue? i k := by
  cases altered next with
  | keeps same => rw [slotValue?, same, ← slotValue?]
  | @writes j write stores =>
    refine slotValue?_of_stores stores fun same spot => ?_
    cases write with
    | slot l v =>
      cases same
      cases spot
      obtain ⟨current, settles⟩ | ⟨type, ended, makes⟩ | ⟨h, kind, ofKind, other, returns⟩ :=
        stores.settles_or_makes_or_returns
      · exact noCall current v settles
      · exact noFirst type ended v makes
      · exact noHook h kind v ofKind other returns
    | _ => cases spot
  | @queues kind j slot effect queues =>
    exact slotValue?_modify queues.contents_eq fun _ c _ => congrArg (Places.get? · k) values_queue
  | fills top held contents => exact slotValue?_modify contents fun _ _ _ => rfl
  | takes hands found here left contents =>
    exact slotValue?_modify contents fun _ _ _ => congrArg (Places.get? · k) values_withEffects
  | creates created => rw [created, slotValue?_create]

/-! ### First values -/

theorem MakesFirst.slotValue?_eq {type : ValueType} {ended : Option SlotValue}
    (makes : MakesFirst i k type ended v w w') : w'.slotValue? i k = some v := by
  obtain ⟨top, ends, found, rfl, step⟩ := makes
  exact (Stores.first top ends found step).slotValue?_eq

/-! ### Calls of a handle -/

/-- When a handle is called, programs come onto the stack and no more is done. -/
theorem exists_programs_of_handleAt? (calls : w.handleAt? = some (i, k))
    (step : w.step? = some w') :
    ∃ r next keep stack, ∃ programs : List (Program H × Option Keep),
      w.stack = .program (.revise i k r next) keep :: stack ∧
        w' = { w with stack := programs.map (fun p => .program p.1 p.2) ++ stack } := by
  unfold handleAt? at calls
  split at calls
  · next j l r next keep stack top =>
    cases calls
    refine ⟨r, next, keep, stack, ?_⟩
    rw [step?_program top, Option.some.injEq] at step
    subst step
    simp only [stepProgram]
    split
    · exact ⟨[(next, keep)], top, rfl⟩
    · simp only [revise]
      split
      · exact ⟨[(next, keep)], top, rfl⟩
      · next current there =>
        split
        · exact ⟨[(next, keep)], top, rfl⟩
        · next p program => exact ⟨[(p, some (.change i k current)), (next, keep)], top, rfl⟩
  · cases calls

/-- What a call has come to is put into the slot if it differs, and then a render is asked for. -/
theorem Settles.step_eq (settles : Settles i k current u w w') :
    ∃ stack, w.stack = .program (.give u) (some (.change i k current)) :: stack ∧
      w' = if current.differs u then
          ({ w with stack }.modify i fun x => { x with slots := x.slots.setValue k u }).update i
        else { w with stack } := by
  obtain @⟨stack, top, step⟩ := settles
  rw [step?_ends top (.give u) rfl, Option.some.injEq] at step
  refine ⟨stack, top, step.symm.trans ?_⟩
  by_cases differs : current.differs u = true
  · simp [settle, Option.filter, differs]
  · simp [settle, Option.filter, differs]

/-- What becomes of the value of the slot when its program has been run on that value. -/
theorem Settles.slotValue?_eq (settles : Settles i k current u w w')
    (there : w.slotValue? i k = some current) :
    w'.slotValue? i k = some (current.revised u) := by
  unfold SlotValue.revised
  by_cases differs : current.differs u = true
  · obtain ⟨top, step⟩ := settles
    obtain ⟨x, found, -⟩ := found_of_slotValue? there
    rw [if_pos differs]
    exact (Stores.change top found differs step).slotValue?_eq
  · obtain ⟨stack, -, rfl⟩ := settles.step_eq
    rw [if_neg differs, if_neg differs]
    exact there

/-- A request for a render only makes an element dirty. -/
theorem exists_of_update {x' : Instance H} (there : (w.update j).instances[i]? = some x') :
    ∃ x, w.instances[i]? = some x ∧ x' = { x with dirty := x'.dirty } := by
  unfold update at there
  split at there
  · exact ⟨x', there, rfl⟩
  · split at there
    · exact ⟨x', there, rfl⟩
    · rw [pushRender, instances_schedule] at there
      simp only [modify] at there
      rw [List.getElem?_modify] at there
      obtain ⟨x, found, rfl⟩ := Option.map_eq_some_iff.mp there
      refine ⟨x, found, ?_⟩
      split
      · rfl
      · rfl

/-- The end of a call changes an element in one slot only. -/
theorem Settles.exists_found {x' : Instance H} (settles : Settles j l current u w w')
    (there : w'.instances[i]? = some x') :
    ∃ x, w.instances[i]? = some x ∧ ∃ slots dirty, x' = { x with slots, dirty } ∧
      (slots = x.slots ∨ (j = i ∧ slots = x.slots.setValue l u)) := by
  obtain ⟨stack, -, rfl⟩ := settles.step_eq
  split at there
  · obtain ⟨y, found', same⟩ := exists_of_update there
    simp only [modify] at found'
    rw [List.getElem?_modify] at found'
    obtain ⟨x, found, rfl⟩ := Option.map_eq_some_iff.mp found'
    refine ⟨x, found, x'.slots, x'.dirty, ?_, ?_⟩
    · rw [same]
      split
      · rfl
      · rfl
    · rw [same]
      split
      · next here => exact .inr ⟨here, rfl⟩
      · exact .inl rfl
  · exact ⟨x', there, x'.slots, x'.dirty, rfl, .inl rfl⟩

theorem host_schedule (w : World H) (wasEmpty : Bool) (runner : Runner) (q : QueueId) :
    (w.schedule wasEmpty runner q).host = w.host := by
  unfold schedule queue
  split
  · cases runner with
    | _ => rfl
  · rfl

theorem host_update (w : World H) (i : Nat) : (w.update i).host = w.host := by
  unfold update
  split
  · rfl
  · split
    · rfl
    · exact host_schedule _ _ _ _

theorem Settles.host_eq (settles : Settles j l current u w w') : w'.host = w.host := by
  obtain ⟨stack, -, rfl⟩ := settles.step_eq
  split
  · exact host_update _ _
  · rfl

/-- The end of a call leaves alone what a hook returns in another slot. -/
theorem Settles.answer_eq {x' : Instance H} (settles : Settles j l current u w w')
    (apart : (j, l) ≠ (i, k)) (found : w.instances[i]? = some x)
    (found' : w'.instances[i]? = some x') (computed : Keyed Json) (h : Hook H) :
    ((w'.rendering i x' computed k).answer h).1 = ((w.rendering i x computed k).answer h).1 := by
  obtain ⟨x₀, found₀, slots, dirty, rfl, same⟩ := settles.exists_found found'
  obtain rfl : x₀ = x := Option.some.inj (found₀.symm.trans found)
  rw [rendering, settles.host_eq]
  obtain rfl | ⟨rfl, rfl⟩ := same
  · rfl
  · have other : l ≠ k := fun same => apart (congrArg (Prod.mk j) same)
    exact RenderState.answer_setValue (s := w.rendering j x₀ computed k) other u h

/-- A call leaves alone what a hook returns in another slot. -/
theorem PartOfCall.answer_eq {x' : Instance H} (part : PartOfCall j l w w')
    (apart : (j, l) ≠ (i, k)) (found : w.instances[i]? = some x)
    (found' : w'.instances[i]? = some x') (computed : Keyed Json) (h : Hook H) :
    ((w'.rendering i x' computed k).answer h).1 = ((w.rendering i x computed k).answer h).1 := by
  cases part with
  | begins calls step =>
    obtain ⟨r, next, keep, stack, programs, top, rfl⟩ := exists_programs_of_handleAt? calls step
    obtain rfl : x' = x := Option.some.inj (found'.symm.trans found)
    rfl
  | ends settles => exact settles.answer_eq apart found found' computed h

/-- A call asks for no render when it begins. -/
theorem not_asks_of_handleAt? (calls : w.handleAt? = some (i, k)) : ¬Asks j w w' := by
  intro asks
  cases asks with
  | request top => simp [handleAt?, top] at calls
  | setField top => simp [handleAt?, top] at calls
  | change top => simp [handleAt?, top] at calls
  | hook top => simp [handleAt?, top] at calls

theorem standing_of_handleAt? (calls : w.handleAt? = some (i, k)) (step : w.step? = some w') :
    w'.standing j = w.standing j := by
  obtain ⟨r, next, keep, stack, programs, top, rfl⟩ := exists_programs_of_handleAt? calls step
  refine standing_congr rfl rfl ?_
  have noPass :
      (programs.map fun p => Activity.program p.1 p.2).countP (Activity.isPass j) = 0 := by
    rw [List.countP_eq_zero]
    rintro a mem
    obtain ⟨p, -, rfl⟩ := List.mem_map.mp mem
    exact Bool.false_ne_true
  rw [List.countP_append, noPass, top, Nat.zero_add, List.countP_cons]
  rfl

/-- It asks for one when it ends exactly if it makes a difference. -/
theorem Settles.asks_iff (settles : Settles i k current u w w')
    (found : w.instances[i]? = some x) : Asks i w w' ↔ current.differs u = true := by
  obtain ⟨top, step⟩ := settles
  constructor
  · intro asks
    cases asks with
    | request top' => cases top.symm.trans top'
    | setField top' => cases top.symm.trans top'
    | hook top' => cases top.symm.trans top'
    | change top' found differs =>
      cases top.symm.trans top'
      exact differs
  · exact fun differs => .change top found differs step

/-- How the element stands with the render queue is changed just by what a request for a render
does, and only if the call makes a difference. -/
theorem Settles.standing_eq (settles : Settles i k current u w w')
    (found : w.instances[i]? = some x) :
    w'.standing i = if current.differs u then (w.standing i).asked else w.standing i := by
  obtain ⟨stack, top, rfl⟩ := settles.step_eq
  have popped : ({ w with stack } : World H).standing i = w.standing i := by
    refine standing_congr rfl rfl ?_
    rw [top]
    rfl
  split
  · refine (standing_modify_update (x := x) ?_ ?_).trans (congrArg Standing.asked popped)
    · exact found
    · exact fun _ => rfl
  · exact popped

/-! ### Hooks -/

/-- A hook leaves a value in its slot that is there, and returns it. -/
theorem Returns.of_some {kind : SlotKind} (returns : Returns i k h v w w')
    (ofKind : h.kind? = some kind) (keeps : kind.keeps = true) (there : w.slotValue? i k = some u)
    (fits : kind.fits u = true) : v = u ∧ w'.slotValue? i k = some u := by
  obtain @⟨next, computed, purpose, stack, x, top, found, ready, returned, step⟩ := returns
  have before : Places.get? x.slots.values k = some u :=
    (slotValue?_of_found found).symm.trans there
  obtain ⟨again, writes⟩ := RenderState.returned?_of_some (s := w.rendering i x computed k)
    ofKind keeps before fits
  refine ⟨Option.some.inj (returned.symm.trans again), ?_⟩
  have contents := contents_hook top found ready step
  rw [writes] at contents
  rw [← there]
  exact slotValue?_modify contents fun _ c _ => congrArg (Places.get? · k) values_queue

/-- A hook that returns a value finds one in its slot. -/
theorem Returns.slotValue?_ne_none {kind : SlotKind} (returns : Returns i k h v w w')
    (ofKind : h.kind? = some kind) (keeps : kind.keeps = true) : w.slotValue? i k ≠ none := by
  obtain ⟨top, found, ready, returned, step⟩ := returns
  rw [slotValue?_of_found found]
  exact Slots.ne_none_of_ready ofKind keeps ready

end World

end LiveMarkup
