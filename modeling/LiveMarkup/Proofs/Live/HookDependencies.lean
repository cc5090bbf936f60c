import LiveMarkup.Proofs.Live.HookSlots
import LiveMarkup.Proofs.Live.Records

/-!
# What hooks do with dependencies

A memo, a callback or an effect gives dependencies in its slot, and finds there those with which the
slot was made. If they are equal and the value is there that goes with them, the hook knows what it
needs (`Slots.knows`): it leaves everything alone and returns the value. If not, it makes the value
or queues the effect, and notes the dependencies. All other moves leave the dependencies of a slot
alone (`slotDeps?_of_quiet`).
-/

namespace LiveMarkup

variable {H : Type}

/-! ## Hooks with dependencies -/

namespace Hook

/-- The dependencies that a hook gives. -/
def deps? : Hook H → Option (List Json)
  | .useMemo deps _ | .useCallback deps _ => some deps
  | .useEffect _ deps _ => deps
  | .view | .setState _ _ | .useState _ | .useInt _ | .useCell _ | .readCell _ | .writeCell _ _ =>
    none

end Hook

namespace SlotKind

/-- Hooks of the kind make a value anew when their dependencies differ. -/
def makes : SlotKind → Bool
  | .memo | .callback => true
  | .json | .int | .cell | .effect _ => false

theorem makes_of_keeps {kind : SlotKind} (keeps : kind.keeps = true) : kind.makes = false := by
  cases kind with
  | json | int | cell => rfl
  | _ => cases keeps

end SlotKind

namespace Hook

/-- A hook gives out a setter or a dispatch function. -/
def hasHandle : Hook H → Bool
  | .useState _ | .useInt _ => true
  | _ => false

variable {h : Hook H}

theorem exists_kind?_of_hasHandle (handle : h.hasHandle = true) :
    ∃ kind, h.kind? = some kind ∧ kind.keeps = true := by
  cases h with
  | useState init | useInt init => exact ⟨_, rfl, rfl⟩
  | _ => cases handle

theorem exists_deps? {kind : SlotKind} (ofKind : h.kind? = some kind) (makes : kind.makes = true) :
    ∃ deps, h.deps? = some deps := by
  cases h with
  | useMemo deps compute | useCallback deps body => exact ⟨deps, rfl⟩
  | _ => cases ofKind <;> cases makes

/-- Only a hook that takes a slot gives dependencies. -/
theorem exists_kind?_of_deps? {deps : List Json} (given : h.deps? = some deps) :
    ∃ kind, h.kind? = some kind := by
  cases h with
  | useMemo deps compute | useCallback deps body | useEffect kind deps effect => exact ⟨_, rfl⟩
  | _ => cases given

/-- A hook that gives dependencies does not begin with a value. -/
theorem first?_of_deps? {deps : List Json} (given : h.deps? = some deps) : h.first? = none := by
  cases h with
  | useMemo deps compute | useCallback deps body | useEffect kind deps effect => rfl
  | _ => cases given

end Hook

namespace Slots

/-- The value in a slot that was made with equal dependencies, as `read` sees it. -/
def known? {α : Type} (s : Slots H) (slot : Nat) (deps : List Json) (read : SlotValue → Option α) :
    Option α :=
  if s.depsMatch slot deps then s.value? slot read else none

/-- A hook finds in its slot what it needs for the dependencies that it gives. -/
def knows (s : Slots H) (slot : Nat) : Hook H → Bool
  | .useMemo deps _ => (s.known? slot deps SlotValue.json?).isSome
  | .useCallback deps _ => (s.known? slot deps SlotValue.callback?).isSome
  | .useEffect _ (some deps) _ => s.depsMatch slot deps
  | _ => false

variable {s : Slots H} {slot : Nat} {h : Hook H} {deps : List Json}

theorem depsMatch_of_known {α : Type} {read : SlotValue → Option α}
    (known : (s.known? slot deps read).isSome = true) : s.depsMatch slot deps = true := by
  by_contra other
  rw [known?, if_neg other] at known
  cases known

theorem eq_none_of_new {α : Type} {read : SlotValue → Option α}
    (new : (s.known? slot deps read).isSome = false) :
    (if s.depsMatch slot deps then s.value? slot read else none) = none :=
  Option.isNone_iff_eq_none.mp (Option.isSome_eq_false_iff.mp new)

theorem value?_json {j : Json} (seen : s.value? slot SlotValue.json? = some j) :
    Places.get? s.values slot = some (.json j) := by
  obtain ⟨v, found, read⟩ := Option.bind_eq_some_iff.mp seen
  cases v with
  | json j' => exact Option.some.inj read ▸ found
  | _ => cases read

theorem value?_callback {k : Nat} (seen : s.value? slot SlotValue.callback? = some k) :
    Places.get? s.values slot = some (.callback k) := by
  obtain ⟨v, found, read⟩ := Option.bind_eq_some_iff.mp seen
  cases v with
  | callback k' => exact Option.some.inj read ▸ found
  | _ => cases read

theorem pending?_of_deps? (given : h.deps? = some deps) : s.pending? slot h = none :=
  pending?_of_first? (Hook.first?_of_deps? given)

theorem exists_deps?_of_knows (knows : s.knows slot h = true) : ∃ deps, h.deps? = some deps := by
  cases h with
  | useMemo deps compute | useCallback deps body => exact ⟨deps, rfl⟩
  | useEffect kind deps effect =>
    cases deps with
    | some deps => exact ⟨deps, rfl⟩
    | none => cases knows
  | _ => cases knows

/-- What is known has been kept with equal dependencies. -/
theorem exists_of_knows (given : h.deps? = some deps) (knows : s.knows slot h = true) :
    ∃ kept, Places.get? s.deps slot = some kept ∧ Json.sameItems kept deps = true := by
  have matching : s.depsMatch slot deps = true := by
    cases h with
    | useMemo deps' compute =>
      cases given
      exact depsMatch_of_known knows
    | useCallback deps' body =>
      cases given
      exact depsMatch_of_known knows
    | useEffect kind deps' effect =>
      cases given
      exact knows
    | _ => cases given
  unfold depsMatch at matching
  split at matching
  · next kept there => exact ⟨kept, there, matching⟩
  · cases matching

/-- What has been kept with equal dependencies is known, when the value is there that goes with
it. -/
theorem knows_of_some {kept : List Json} {kind : SlotKind} (ofKind : h.kind? = some kind)
    (given : h.deps? = some deps) (there : Places.get? s.deps slot = some kept)
    (same : Json.sameItems kept deps = true)
    (value : kind.makes = true → ∃ v, Places.get? s.values slot = some v ∧ kind.fits v = true) :
    s.knows slot h = true := by
  have matching : s.depsMatch slot deps = true := by rw [depsMatch, there]; exact same
  cases h with
  | useMemo deps' compute =>
    cases given
    cases ofKind
    obtain ⟨v, found, fits⟩ := value rfl
    cases v with
    | json j => simp [knows, known?, matching, value?, found, SlotValue.json?]
    | _ => cases fits
  | useCallback deps' body =>
    cases given
    cases ofKind
    obtain ⟨v, found, fits⟩ := value rfl
    cases v with
    | callback c => simp [knows, known?, matching, value?, found, SlotValue.callback?]
    | _ => cases fits
  | useEffect kind' deps' effect =>
    cases given
    exact matching
  | _ => cases given

end Slots

namespace RenderState

variable {s : RenderState H} {h : Hook H} {deps : List Json} {kind : SlotKind} {v : SlotValue}

/-- A hook that knows what it needs takes its slot, returns the value in it and does no more. -/
theorem answer_of_knows (knows : s.slots.knows s.cursor h = true) :
    (s.answer h).2 = s.advance ∧ s.writes? h = none ∧ s.queues? h = none ∧
      ∀ v ∈ h.returned? (s.answer h).1, Places.get? s.slots.values s.cursor = some v := by
  cases h with
  | useMemo deps compute =>
    obtain ⟨j, known⟩ := Option.isSome_iff_exists.mp knows
    have matching := Slots.depsMatch_of_known knows
    rw [Slots.known?] at known
    refine ⟨by simp [answer, known], by simp [writes?, known], rfl, fun v returned => ?_⟩
    obtain rfl : v = .json j := by simpa [answer, known, Hook.returned?] using returned.symm
    rw [if_pos matching] at known
    exact Slots.value?_json known
  | useCallback deps body =>
    obtain ⟨k, known⟩ := Option.isSome_iff_exists.mp knows
    have matching := Slots.depsMatch_of_known knows
    rw [Slots.known?] at known
    refine ⟨by simp [answer, known], by simp [writes?, known], rfl, fun v returned => ?_⟩
    obtain rfl : v = .callback k := by simpa [answer, known, Hook.returned?] using returned.symm
    rw [if_pos matching] at known
    exact Slots.value?_callback known
  | useEffect kind deps effect =>
    cases deps with
    | none => cases knows
    | some deps =>
      have matching : s.slots.depsMatch s.cursor deps = true := knows
      refine ⟨by simp [answer, matching], rfl, by simp [queues?, matching], fun v returned => ?_⟩
      cases returned
  | _ => cases knows

/-- A hook that does not know what it needs notes the dependencies that it gives. -/
theorem deps_answer_of_not_knows (given : h.deps? = some deps)
    (new : s.slots.knows s.cursor h = false) :
    (s.answer h).2.slots.deps = Places.set s.slots.deps s.cursor (some deps) := by
  cases h with
  | useMemo deps' compute =>
    cases given
    have unknown := Slots.eq_none_of_new new
    simp [answer, unknown, Slots.setDeps, Slots.setValue]
  | useCallback deps' body =>
    cases given
    have unknown := Slots.eq_none_of_new new
    simp [answer, unknown, Slots.setDeps, Slots.setValue, Slots.newCallback]
  | useEffect kind deps' effect =>
    cases given
    have other : s.slots.depsMatch s.cursor deps = false := new
    cases kind with
    | _ => simp [answer, other, Slots.setDeps, Slots.queueEffect, Slots.setEffects]
  | _ => cases given

theorem deps_answer_of_none (nothing : h.deps? = none) :
    (s.answer h).2.slots.deps = s.slots.deps := by
  cases h with
  | view | setState name value | useState init | useInt init | useCell init | readCell cell
  | writeCell cell n => rfl
  | useMemo deps compute | useCallback deps body => cases nothing
  | useEffect kind deps effect =>
    cases nothing
    cases kind with
    | _ => rfl

/-- A memo that does not know its value computes it. -/
theorem useMemo_of_not_knows {compute : H → Json × H}
    (new : s.slots.knows s.cursor (.useMemo deps compute) = false) :
    (s.answer (.useMemo deps compute)).1 = (compute s.host).1 ∧
      (s.answer (.useMemo deps compute)).2.host = (compute s.host).2 ∧
      s.writes? (.useMemo deps compute) = some (.slot s.cursor (.json (compute s.host).1)) := by
  have unknown := Slots.eq_none_of_new new
  simp [answer, writes?, unknown]

/-- A callback that is not known is made. -/
theorem useCallback_of_not_knows {body : List Value → Program H}
    (new : s.slots.knows s.cursor (.useCallback deps body) = false) :
    (s.answer (.useCallback deps body)).1 = s.slots.callbacks.length ∧
      (s.answer (.useCallback deps body)).2.slots.callbacks = s.slots.callbacks ++ [body] ∧
      s.writes? (.useCallback deps body) =
        some (.slot s.cursor (.callback s.slots.callbacks.length)) := by
  have unknown := Slots.eq_none_of_new new
  simp [answer, writes?, unknown, Slots.newCallback, Slots.setValue, Slots.setDeps]

/-- A value that is made anew is put into the slot. -/
theorem returned?_of_not_knows (ofKind : h.kind? = some kind) (makes : kind.makes = true)
    (new : s.slots.knows s.cursor h = false) :
    ∃ v, h.returned? (s.answer h).1 = some v ∧ s.writes? h = some (.slot s.cursor v) ∧
      kind.fits v = true := by
  cases h with
  | useMemo deps compute =>
    cases ofKind
    obtain ⟨answered, -, writes⟩ := useMemo_of_not_knows new
    exact ⟨_, congrArg (some ∘ SlotValue.json) answered, writes, rfl⟩
  | useCallback deps body =>
    cases ofKind
    obtain ⟨answered, -, writes⟩ := useCallback_of_not_knows new
    exact ⟨_, congrArg (some ∘ SlotValue.callback) answered, writes, rfl⟩
  | _ => cases ofKind <;> cases makes

/-- No callback is forgotten. -/
theorem callbacks_kept (s : RenderState H) (h : Hook H) :
    s.slots.callbacks <+: (s.answer h).2.slots.callbacks := by
  by_cases knows : s.slots.knows s.cursor h = true
  · rw [(answer_of_knows knows).1]
    exact List.prefix_rfl
  · have new := Bool.not_eq_true _ ▸ knows
    cases h with
    | view | setState name value | useState init | useInt init | useCell init | readCell cell
    | writeCell cell n => exact List.prefix_rfl
    | useMemo deps compute =>
      have unknown := Slots.eq_none_of_new new
      simp [answer, unknown, Slots.setValue, Slots.setDeps]
    | useCallback deps body =>
      rw [(useCallback_of_not_knows new).2.1]
      exact List.prefix_append _ _
    | useEffect kind deps effect =>
      cases deps with
      | none =>
        cases kind with
        | _ => exact List.prefix_rfl
      | some deps =>
        have other : s.slots.depsMatch s.cursor deps = false := new
        cases kind with
        | _ => simp [answer, other, Slots.setDeps, Slots.queueEffect, Slots.setEffects]

end RenderState

namespace World

variable {w w' : World H} {ws : Nat → World H} {n m l a b i j k : Nat} {x : Instance H}
  {h h' : Hook H} {deps deps' : List Json} {kind : SlotKind} {kinds : Nat → SlotKind}
  {v : SlotValue}

/-! ## Moves -/

/-- A hook gives dependencies in slot `k` of element `i`. -/
def Gives (i k : Nat) (deps : List Json) (w w' : World H) : Prop :=
  ∃ h, h.deps? = some deps ∧ CallsHook i k h w w'

/-- The dependencies that are kept in slot `k` of element `i`. -/
def slotDeps? (w : World H) (i k : Nat) : Option (List Json) := Places.get? (w.record i).deps k

/-- What a hook needs for the dependencies that it gives is in its slot. -/
def knows (w : World H) (i k : Nat) (h : Hook H) : Bool :=
  (w.instances[i]?).any fun x => x.slots.knows k h

theorem slotDeps?_of_found (found : w.instances[i]? = some x) :
    w.slotDeps? i k = Places.get? x.slots.deps k := by
  rw [slotDeps?, record_of_found found]
  rfl

theorem knows_of_found (found : w.instances[i]? = some x) :
    w.knows i k h = x.slots.knows k h := by
  rw [knows, found]
  rfl

theorem CallsHook.unique (calls : CallsHook i k h w w') (again : CallsHook i k h' w w') :
    h' = h := by
  obtain ⟨top, -, -⟩ := calls
  obtain ⟨top', -, -⟩ := again
  cases top.symm.trans top'
  rfl

theorem Returns.unique {v' : SlotValue} (returns : Returns i k h v w w')
    (again : Returns i k h' v' w w') : h' = h ∧ v' = v := by
  obtain ⟨top, found, -, returned, -⟩ := returns
  obtain ⟨top', found', -, returned', -⟩ := again
  cases top.symm.trans top'
  cases found.symm.trans found'
  exact ⟨rfl, Option.some.inj (returned'.symm.trans returned)⟩

theorem Gives.unique (gives : Gives i k deps w w') (again : Gives i k deps' w w') :
    deps' = deps := by
  obtain ⟨h, given, calls⟩ := gives
  obtain ⟨h', given', calls'⟩ := again
  obtain rfl := calls.unique calls'
  exact Option.some.inj (given'.symm.trans given)

theorem CallsHook.kind?_eq (calls : CallsHook i k h w w')
    (inOrder : ∀ call ∈ w.hookAt?, call.1 = i → call.2.2 = kinds call.2.1)
    (ofKind : h.kind? = some kind) : kind = kinds k :=
  inOrder _ (calls.hookAt?_eq ofKind) rfl

theorem CallsHook.exists_found (calls : CallsHook i k h w w') : ∃ x, w.instances[i]? = some x := by
  obtain ⟨-, found, -⟩ := calls
  exact ⟨_, found⟩

/-- Memos and callbacks always return something. -/
theorem CallsHook.returns (calls : CallsHook i k h w w') (ofKind : h.kind? = some kind)
    (makes : kind.makes = true) : ∃ v, Returns i k h v w w' := by
  obtain ⟨top, found, step⟩ := calls
  cases h with
  | useMemo deps compute | useCallback deps body => exact ⟨_, top, found, rfl, rfl, step⟩
  | _ => cases ofKind <;> cases makes

/-- A hook does to the host state what its answer does. -/
theorem host_hook {next : h.Answer → Render H} {computed : Keyed Json} {purpose : Purpose H}
    {stack : List (Activity H)}
    (top : w.stack = .render i (.hook h next) computed k purpose :: stack)
    (found : w.instances[i]? = some x) (ready : x.slots.pending? k h = none)
    (step : w.step? = some w') :
    w'.host = ((w.rendering i x computed k).answer h).2.host := by
  simp only [step?, top, stepRender, found, ready, Option.some.injEq] at step
  subst step
  cases h with
  | setState name value => exact host_update _ _
  | _ => rfl

/-- Dependencies stay until a hook gives some in the same slot. -/
theorem slotDeps?_of_quiet (next : Next w w') (quiet : ∀ deps, ¬Gives i k deps w w') :
    w'.slotDeps? i k = w.slotDeps? i k := by
  cases recorded next with
  | keeps same => rw [slotDeps?, same.record, ← slotDeps?]
  | @hook j cursor h next computed purpose stack x top found ready step =>
    rw [slotDeps?, record_hook top found ready step]
    split
    · next here =>
      subst here
      rw [slotDeps?_of_found found]
      cases given : h.deps? with
      | none => rw [RenderState.deps_answer_of_none given]; rfl
      | some deps =>
        by_cases knows : x.slots.knows cursor h = true
        · rw [(RenderState.answer_of_knows (s := w.rendering j x computed cursor) knows).1]
          rfl
        · have new : x.slots.knows cursor h = false := Bool.not_eq_true _ ▸ knows
          have apart : cursor ≠ k := by
            rintro rfl
            exact quiet deps ⟨h, given, top, found, step⟩
          rw [RenderState.deps_answer_of_not_knows (s := w.rendering j x computed cursor) given new]
          exact (Places.get?_set _ _ _ _).trans (if_neg apart)
    · rfl
  | finish top found step =>
    rw [slotDeps?, record_finish top found step]
    split
    · rw [Record.deps_ended, ← slotDeps?]
    · rfl

/-- Callbacks are not forgotten. -/
theorem callbacks_next (next : Next w w') (i : Nat) :
    (w.record i).callbacks <+: (w'.record i).callbacks := by
  cases recorded next with
  | keeps same => exact same.record i ▸ List.prefix_rfl
  | @hook j cursor h next computed purpose stack x top found ready step =>
    rw [record_hook top found ready step]
    split
    · next here =>
      subst here
      rw [record_of_found found]
      exact (w.rendering j x computed cursor).callbacks_kept h
    · exact List.prefix_rfl
  | finish top found step =>
    rw [record_finish top found step]
    split
    · exact (Record.callbacks_ended _ _ _).symm ▸ List.prefix_rfl
    · exact List.prefix_rfl

theorem Run.callbacks_kept (run : Run ws n) (le : m ≤ n) (before : l ≤ m) :
    ((ws l).record i).callbacks <+: ((ws m).record i).callbacks := by
  induction before with
  | refl => exact List.prefix_rfl
  | @step m before ih =>
    exact (ih (Nat.le_of_succ_le le)).trans (callbacks_next (run.next m le) i)

/-! ### Hooks that know what they need -/

/-- What is known is kept with equal dependencies. -/
theorem exists_kept_of_knows (knows : w.knows i k h = true) (given : h.deps? = some deps) :
    ∃ kept, w.slotDeps? i k = some kept ∧ Json.sameItems kept deps = true := by
  obtain ⟨x, found, known⟩ := (Option.any_eq_true _ _).mp knows
  rw [slotDeps?_of_found found]
  exact Slots.exists_of_knows given known

/-- A hook that knows what it needs leaves its slot and the host state alone. -/
theorem CallsHook.of_knows (calls : CallsHook i k h w w') (knows : w.knows i k h = true) :
    w'.slotDeps? i k = w.slotDeps? i k ∧ w'.slotValue? i k = w.slotValue? i k ∧
      w'.host = w.host ∧ (w'.record i).callbacks = (w.record i).callbacks := by
  obtain @⟨next, computed, purpose, stack, x, top, found, step⟩ := calls
  rw [knows_of_found found] at knows
  obtain ⟨answered, writes, queues, -⟩ :=
    RenderState.answer_of_knows (s := w.rendering i x computed k) knows
  obtain ⟨deps, given⟩ := Slots.exists_deps?_of_knows knows
  have ready : x.slots.pending? k h = none := Slots.pending?_of_deps? given
  have record := (record_hook top found ready step i).trans (if_pos rfl)
  rw [answered] at record
  refine ⟨?_, ?_, ?_, ?_⟩
  · rw [slotDeps?, record, slotDeps?_of_found found]
    rfl
  · have contents := contents_hook top found ready step
    rw [writes, queues] at contents
    exact slotValue?_modify contents fun _ _ _ => rfl
  · rw [host_hook top found ready step, answered]
    rfl
  · rw [record, record_of_found found]
    rfl

/-- It returns the value of its slot. -/
theorem Returns.of_knows (returns : Returns i k h v w w') (knows : w.knows i k h = true) :
    w.slotValue? i k = some v := by
  obtain @⟨next, computed, purpose, stack, x, top, found, ready, returned, step⟩ := returns
  rw [knows_of_found found] at knows
  rw [slotValue?_of_found found]
  exact (RenderState.answer_of_knows (s := w.rendering i x computed k) knows).2.2.2 v returned

/-! ### Hooks that do not -/

theorem CallsHook.slotDeps?_eq (calls : CallsHook i k h w w') (given : h.deps? = some deps)
    (new : w.knows i k h = false) : w'.slotDeps? i k = some deps := by
  obtain @⟨next, computed, purpose, stack, x, top, found, step⟩ := calls
  rw [knows_of_found found] at new
  rw [slotDeps?, record_hook top found (Slots.pending?_of_deps? given) step, if_pos rfl,
    RenderState.deps_answer_of_not_knows (s := w.rendering i x computed k) given new]
  exact (Places.get?_set _ _ _ _).trans (if_pos rfl)

/-- What a memo or a callback makes anew it returns, and it is in the slot from then on. -/
theorem CallsHook.exists_returns (calls : CallsHook i k h w w') (ofKind : h.kind? = some kind)
    (makes : kind.makes = true) (new : w.knows i k h = false) :
    ∃ v, Returns i k h v w w' ∧ w'.slotValue? i k = some v ∧ kind.fits v = true := by
  obtain @⟨next, computed, purpose, stack, x, top, found, step⟩ := calls
  rw [knows_of_found found] at new
  obtain ⟨v, returned, writes, fits⟩ :=
    RenderState.returned?_of_not_knows (s := w.rendering i x computed k) ofKind makes new
  obtain ⟨deps, given⟩ := Hook.exists_deps? ofKind makes
  refine ⟨v, ⟨top, found, Slots.pending?_of_deps? given, returned, step⟩, ?_, fits⟩
  obtain ⟨c, there, holds⟩ := (Stores.hook top found writes step).holds
  rw [slotValue?, there]
  exact holds

theorem CallsHook.useMemo_of_not_knows {compute : H → Json × H}
    (calls : CallsHook i k (.useMemo deps compute) w w')
    (new : w.knows i k (.useMemo deps compute) = false) :
    Returns i k (.useMemo deps compute) (.json (compute w.host).1) w w' ∧
      w'.host = (compute w.host).2 := by
  obtain @⟨next, computed, purpose, stack, x, top, found, step⟩ := calls
  rw [knows_of_found found] at new
  obtain ⟨answered, host, -⟩ :=
    RenderState.useMemo_of_not_knows (s := w.rendering i x computed k) new
  refine ⟨⟨top, found, rfl, ?_, step⟩, (host_hook top found rfl step).trans host⟩
  exact congrArg (some ∘ SlotValue.json) answered

theorem CallsHook.useCallback_of_not_knows {body : List Value → Program H}
    (calls : CallsHook i k (.useCallback deps body) w w')
    (new : w.knows i k (.useCallback deps body) = false) :
    Returns i k (.useCallback deps body) (.callback (w.record i).callbacks.length) w w' ∧
      (w'.record i).callbacks = (w.record i).callbacks ++ [body] := by
  obtain @⟨next, computed, purpose, stack, x, top, found, step⟩ := calls
  rw [knows_of_found found] at new
  obtain ⟨answered, callbacks, -⟩ :=
    RenderState.useCallback_of_not_knows (s := w.rendering i x computed k) new
  rw [record_hook top found rfl step i, if_pos rfl, record_of_found found]
  refine ⟨⟨top, found, rfl, ?_, step⟩, callbacks⟩
  exact congrArg (some ∘ SlotValue.callback) answered

end World

end LiveMarkup
