import LiveMarkup.Proofs.Live.HookSlots
import LiveMarkup.Proofs.Live.SlotPrograms

/-!
# Histories of hook slots

When the hooks of an element come in the same order in every render, a slot of state has a history
of its own: the value that the program of its first hook has come to, and then what the functions of
its setters and dispatch functions have made of it, one after the other. A function whose result is
equal to the value leaves it as it is.

The value that a function is run on is read before it, and compared with its result behind it. So
there is no such history when a handle of the slot is called by such a function, or by something
that happens while it is at work, nor when the element is rendered while the first value of the slot
is being made.
-/

namespace LiveMarkup

variable {H : Type}

open Activity

/-- A setter or a dispatch function has been called and is over: the value that its function was run
on, and what that has made of it. -/
structure Call where
  argument : SlotValue
  result : SlotValue

namespace World

variable {w w' : World H} {ws : Nat → World H} {n m a b e i k : Nat} {kinds : Nat → SlotKind}
  {kind : SlotKind} {h : Hook H} {v u current : SlotValue} {c : Call} {cs : List Call}
  {change : SlotValue → SlotValue → SlotValue}

/-- Each slot of element `i` is taken by hooks of one kind only. -/
def InOrder (ws : Nat → World H) (n i : Nat) (kinds : Nat → SlotKind) : Prop :=
  ∀ m < n, ∀ call ∈ (ws m).hookAt?, call.1 = i → call.2.2 = kinds call.2.1

/-- The function of a setter or a dispatch function for slot `k` of element `i` is at work. -/
def isChanging (w : World H) (i k : Nat) : Bool :=
  w.stack.any fun a => a.kept?.any (Keep.isChange i k)

/-- The first value of slot `k` of element `i` is being made. -/
def isBeginning (w : World H) (i k : Nat) : Bool :=
  w.stack.any fun a => a.kept?.any (Keep.isFirst i k)

/-- What is done for a slot of element `i` is done one by one: no setter and no dispatch function is
called while a function of one for the same slot is at work, and no hook takes a slot while the
first value of the slot is being made. -/
structure OneByOne (ws : Nat → World H) (n i : Nat) : Prop where
  calls : ∀ m < n, ∀ call ∈ (ws m).handleAt?, call.1 = i → (ws m).isChanging i call.2 = false
  hooks : ∀ m < n, ∀ call ∈ (ws m).hookAt?, call.1 = i → (ws m).isBeginning i call.2.1 = false

/-- Nothing is in the slots of element `i`, and nothing is being made for them. -/
structure IsBlank (w : World H) (i : Nat) : Prop where
  empty : ∀ k, w.slotValue? i k = none
  idle : ∀ k, keptFor i k w.stack = []

/-- No first value has been put into slot `k` of element `i` before move `m`. -/
def Unmade (ws : Nat → World H) (i k m : Nat) : Prop :=
  ∀ l < m, ∀ type ended v, ¬MakesFirst i k type ended v (ws l) (ws (l + 1))

/-- The first value of slot `k` of element `i` is `v`, and is put there in move `a`: the program of
the hook `h` has come to it. -/
inductive Initial (ws : Nat → World H) (i k a : Nat) (h : Hook H) (v : SlotValue) : Prop
  | intro {b : Nat} {type : ValueType} {init : Program H} {ended : Option SlotValue}
    (calls : CallsHook i k h (ws b) (ws (b + 1))) (first : h.first? = some (type, init))
    (yields : Yields ws (.first i k type) init ended b a)
    (makes : MakesFirst i k type ended v (ws a) (ws (a + 1)))
    (unmade : Unmade ws i k a)

/-- A setter or a dispatch function for slot `k` of element `i` is called in move `b`, and its
function comes to the result in move `e`. -/
inductive Applies (ws : Nat → World H) (i k : Nat) (c : Call) (b e : Nat) : Prop
  | intro {r : Revision (Program H)} {p : Program H}
    (calls : Calls i k r c.argument p (ws b) (ws (b + 1)))
    (yields : Yields ws (.change i k c.argument) p (some c.result) b e)

/-- The calls of handles for slot `k` of element `i` that come to a result in the moves from `a` on
and before `b`, in the order in which they do. -/
inductive Revisions (ws : Nat → World H) (i k a : Nat) : Nat → List Call → Prop
  | none : Revisions ws i k a a []
  | call {b s : Nat} {cs : List Call} {c : Call} (before : Revisions ws i k a b cs)
    (applies : Applies ws i k c s b) : Revisions ws i k a (b + 1) (cs ++ [c])
  | other {b : Nat} {cs : List Call} (before : Revisions ws i k a b cs)
    (quiet : ∀ current u, ¬Settles i k current u (ws b) (ws (b + 1))) :
    Revisions ws i k a (b + 1) cs

/-- The calls make `v` of `v₀`: each function is run on what those before it have left, and `change`
says what is left behind it. -/
inductive Leads (change : SlotValue → SlotValue → SlotValue) (v₀ : SlotValue) :
    List Call → SlotValue → Prop
  | none : Leads change v₀ [] v₀
  | call {cs : List Call} {c : Call} (before : Leads change v₀ cs c.argument) :
    Leads change v₀ (cs ++ [c]) (change c.argument c.result)

/-- A value is what the calls before move `m` have made of the first one. -/
inductive Recounts (change : SlotValue → SlotValue → SlotValue) (ws : Nat → World H) (i k m : Nat)
    (v : SlotValue) : Prop
  | intro {a : Nat} {h : Hook H} {v₀ : SlotValue} {cs : List Call} (lt : a < m)
    (initial : Initial ws i k a h v₀) (revisions : Revisions ws i k (a + 1) m cs)
    (leads : Leads change v₀ cs v)

theorem Recounts.call {s : Nat} (recounts : Recounts change ws i k m c.argument)
    (applies : Applies ws i k c s m) :
    Recounts change ws i k (m + 1) (change c.argument c.result) := by
  obtain ⟨lt, initial, revisions, leads⟩ := recounts
  exact ⟨Nat.lt_succ_of_lt lt, initial, revisions.call applies, leads.call⟩

theorem Recounts.other (recounts : Recounts change ws i k m v)
    (quiet : ∀ current u, ¬Settles i k current u (ws m) (ws (m + 1))) :
    Recounts change ws i k (m + 1) v := by
  obtain ⟨lt, initial, revisions, leads⟩ := recounts
  exact ⟨Nat.lt_succ_of_lt lt, initial, revisions.other quiet, leads⟩

theorem Unmade.next (unmade : Unmade ws i k m)
    (noFirst : ∀ type ended v, ¬MakesFirst i k type ended v (ws m) (ws (m + 1))) :
    Unmade ws i k (m + 1) := by
  intro l lt
  obtain sooner | rfl := Nat.lt_succ_iff_lt_or_eq.mp lt
  · exact unmade l sooner
  · exact noFirst

/-! ## Ends of programs -/

theorem Settles.keptFor_eq (settles : Settles i k current u w w') :
    keptFor i k w.stack = .change i k current :: keptFor i k w'.stack := by
  obtain ⟨stack, top, rfl⟩ := settles.step_eq
  rw [top, keptFor_cons_of_kept rfl (by simp [Keep.isFor, Keep.isChange])]
  split
  · rw [(kept_update _ i).stack]
    rfl
  · rfl

theorem MakesFirst.keptFor_eq {type : ValueType} {ended : Option SlotValue}
    (makes : MakesFirst i k type ended v w w') :
    keptFor i k w.stack = .first i k type :: keptFor i k w'.stack := by
  obtain ⟨top, ends, found, -, step⟩ := makes
  rw [step?_ends top ends rfl, Option.some.injEq] at step
  subst step
  rw [top, keptFor_cons_of_kept rfl (by simp [Keep.isFor, Keep.isFirst])]
  rfl

theorem isChanging_of_mem {current : SlotValue} (mem : .change i k current ∈ keptFor i k w.stack) :
    w.isChanging i k = true := by
  obtain ⟨a, mem, kept⟩ := List.mem_filterMap.mp mem
  obtain ⟨kept, -⟩ := Option.filter_eq_some_iff.mp kept
  refine List.any_eq_true.mpr ⟨a, mem, ?_⟩
  simp [kept, Keep.isChange]

theorem isBeginning_of_mem {type : ValueType} (mem : .first i k type ∈ keptFor i k w.stack) :
    w.isBeginning i k = true := by
  obtain ⟨a, mem, kept⟩ := List.mem_filterMap.mp mem
  obtain ⟨kept, -⟩ := Option.filter_eq_some_iff.mp kept
  refine List.any_eq_true.mpr ⟨a, mem, ?_⟩
  simp [kept, Keep.isFirst]

theorem Returns.kind?_eq (returns : Returns i k h v w w')
    (inOrder : ∀ call ∈ w.hookAt?, call.1 = i → call.2.2 = kinds call.2.1) :
    h.kind? = some (kinds k) := by
  obtain ⟨-, -, -, returned, -⟩ := id returns
  obtain ⟨kind, ofKind, -⟩ := Hook.exists_kind? returned
  rw [ofKind, ← inOrder _ (returns.callsHook.hookAt?_eq ofKind) rfl]

/-! ## The value of a slot -/

/-- The value of slot `k` of element `i` before move `m` is told by what has happened. -/
structure Recalled (ws : Nat → World H) (i k : Nat) (kind : SlotKind) (m : Nat) (v : SlotValue) :
    Prop where
  value : (ws m).slotValue? i k = some v
  fits : kind.fits v = true
  recounts : Recounts SlotValue.revised ws i k m v

/-- How it stands with slot `k` of element `i` before move `m`. At most one program is at work for
the slot: one for its first value, or one for a value in the place of that which is there. -/
inductive Recalls (ws : Nat → World H) (i k : Nat) (kind : SlotKind) (m : Nat) : Prop
  | blank (empty : (ws m).slotValue? i k = none) (idle : keptFor i k (ws m).stack = [])
    (unmade : Unmade ws i k m)
  | beginning {b : Nat} {h : Hook H} {type : ValueType} {init : Program H}
    {below : List (Activity H)} (empty : (ws m).slotValue? i k = none)
    (only : keptFor i k (ws m).stack = [.first i k type])
    (unmade : Unmade ws i k m) (calls : CallsHook i k h (ws b) (ws (b + 1)))
    (ofKind : h.kind? = some kind)
    (first : h.first? = some (type, init))
    (atWork : IsAtWork ws (.first i k type) init below b m)
  | settled {v : SlotValue} (recalled : Recalled ws i k kind m v)
    (idle : keptFor i k (ws m).stack = [])
  | changing {v : SlotValue} {b : Nat} {r : Revision (Program H)} {p : Program H}
    {below : List (Activity H)} (recalled : Recalled ws i k kind m v)
    (only : keptFor i k (ws m).stack = [.change i k v])
    (calls : Calls i k r v p (ws b) (ws (b + 1)))
    (atWork : IsAtWork ws (.change i k v) p below b m)

/-- What begins with a program for the value of slot `k` of element `i`: a call that finds a value
there, or a hook that finds none of its type. -/
theorem Begins.calls_or_callsHook {keep : Keep} {p : Program H} {b : Activity H}
    (begins : w.Begins keep p b) (isFor : keep.isFor i k = true) (step : w.step? = some w') :
    (∃ r current, keep = .change i k current ∧ Calls i k r current p w w' ∧
        w.slotValue? i k = some current) ∨
      ∃ h type kind, keep = .first i k type ∧ CallsHook i k h w w' ∧ h.kind? = some kind ∧
        h.first? = some (type, p) ∧ ∀ v, w.slotValue? i k = some v → kind.fits v = false := by
  cases begins with
  | @change j slot r next keep stack x current p top alive there program =>
    obtain ⟨rfl, rfl⟩ : j = i ∧ slot = k := by
      simpa [Keep.isFor, Keep.isFirst, Keep.isChange] using isFor
    exact .inl ⟨r, current, rfl, ⟨top, alive, there, program, step⟩,
      (slotValue?_of_found (found_of_alive alive)).trans there⟩
  | @first j slot h next computed purpose stack x type init top found pending =>
    obtain ⟨rfl, rfl⟩ : j = i ∧ slot = k := by
      simpa [Keep.isFor, Keep.isFirst, Keep.isChange] using isFor
    obtain ⟨first, -⟩ := Option.filter_eq_some_iff.mp pending
    obtain ⟨kind, ofKind, -⟩ := Hook.exists_kind?_of_first? first
    refine .inr ⟨h, type, kind, rfl, ⟨top, found, step⟩, ofKind, first, fun v there => ?_⟩
    refine Bool.eq_false_iff.mpr fun fits => ?_
    rw [slotValue?_of_found found] at there
    rw [Slots.pending?_of_fits ofKind there fits] at pending
    cases pending

/-- A program for a slot that is over was the latest of those that were begun. -/
theorem keptFor_of_popped {keep : Keep} {a : Activity H} (kept : a.kept? = some keep)
    (isFor : keep.isFor i k = true) (top : w.stack = a :: w'.stack) :
    keptFor i k w.stack = keep :: keptFor i k w'.stack := by
  rw [top, keptFor_cons_of_kept kept isFor]

/-- No program for a slot ends in a move that leaves as many of them or more. -/
theorem not_settles_of_le
    (le : (keptFor i k w.stack).length ≤ (keptFor i k w'.stack).length) (current u : SlotValue) :
    ¬Settles i k current u w w' := by
  intro settles
  rw [settles.keptFor_eq] at le
  exact Nat.not_succ_le_self _ le

theorem not_makesFirst_of_le
    (le : (keptFor i k w.stack).length ≤ (keptFor i k w'.stack).length) (type : ValueType)
    (ended : Option SlotValue) (v : SlotValue) : ¬MakesFirst i k type ended v w w' := by
  intro makes
  rw [makes.keptFor_eq] at le
  exact Nat.not_succ_le_self _ le

section Next

variable (move : Next (ws m) (ws (m + 1))) (keeps : kind.keeps = true)
  (ofKind : ∀ h kind', CallsHook i k h (ws m) (ws (m + 1)) → h.kind? = some kind' → kind' = kind)

include move keeps ofKind

/-- The value of a slot stays as it is when no program for it ends. -/
theorem slotValue?_of_keptFor
    (noCall : ∀ current u, ¬Settles i k current u (ws m) (ws (m + 1)))
    (noFirst : ∀ type ended v, ¬MakesFirst i k type ended v (ws m) (ws (m + 1))) :
    (ws (m + 1)).slotValue? i k = (ws m).slotValue? i k := by
  refine slotValue?_of_quiet move noCall noFirst fun h kind' v ofKind' other returns => ?_
  obtain rfl := ofKind h kind' returns.callsHook ofKind'
  rw [keeps] at other
  cases other

/-- So does all that is told of it. -/
theorem Recalled.next (recalled : Recalled ws i k kind m v)
    (noCall : ∀ current u, ¬Settles i k current u (ws m) (ws (m + 1)))
    (noFirst : ∀ type ended v, ¬MakesFirst i k type ended v (ws m) (ws (m + 1))) :
    Recalled ws i k kind (m + 1) v where
  value := (slotValue?_of_keptFor move keeps ofKind noCall noFirst).trans recalled.value
  fits := recalled.fits
  recounts := recalled.recounts.other noCall

/-- A slot without a value gets none before a hook has begun with a program for it. -/
theorem Recalls.next_of_blank (empty : (ws m).slotValue? i k = none)
    (idle : keptFor i k (ws m).stack = []) (unmade : Unmade ws i k m) :
    Recalls ws i k kind (m + 1) := by
  have le : (keptFor i k (ws m).stack).length ≤ (keptFor i k (ws (m + 1)).stack).length := by
    rw [idle]
    exact Nat.zero_le _
  have noFirst := not_makesFirst_of_le le
  have empty' : (ws (m + 1)).slotValue? i k = none :=
    (slotValue?_of_keptFor move keeps ofKind (not_settles_of_le le) noFirst).trans empty
  cases worked move i k with
  | keeps same => exact .blank empty' (same.trans idle) (unmade.next noFirst)
  | begins begins isFor step left kept =>
    rw [idle] at kept
    obtain ⟨r, current, rfl, calls, there⟩ | ⟨h, type, kind', rfl, calls, isKind, first, -⟩ :=
      begins.calls_or_callsHook isFor step
    · rw [empty] at there
      cases there
    · obtain rfl := ofKind h kind' calls isKind
      exact .beginning empty' kept (unmade.next noFirst) calls isKind first (.of_begun left)
  | ends kept isFor top =>
    rw [keptFor_of_popped kept isFor top] at idle
    cases idle

/-- While the program for the first value is at work no other one is begun, and when it is over the
value is there. -/
theorem Recalls.next_of_beginning {type : ValueType} {init : Program H}
    {below : List (Activity H)} (empty : (ws m).slotValue? i k = none)
    (only : keptFor i k (ws m).stack = [.first i k type]) (unmade : Unmade ws i k m)
    (calls : CallsHook i k h (ws b) (ws (b + 1))) (isKind : h.kind? = some kind)
    (first : h.first? = some (type, init))
    (atWork : IsAtWork ws (.first i k type) init below b m)
    (noHook : ∀ call ∈ (ws m).hookAt?, call.1 = i → (ws m).isBeginning i call.2.1 = false) :
    Recalls ws i k kind (m + 1) := by
  have isFirst : (Keep.first i k type).isFor i k = true := by simp [Keep.isFor, Keep.isFirst]
  have beginning : (ws m).isBeginning i k = true :=
    isBeginning_of_mem (only ▸ List.mem_singleton_self (Keep.first i k type))
  have noCall : ∀ current u, ¬Settles i k current u (ws m) (ws (m + 1)) := by
    intro current u settles
    rw [settles.keptFor_eq] at only
    cases only
  cases worked move i k with
  | keeps same =>
    have noFirst := not_makesFirst_of_le (Nat.le_of_eq (congrArg List.length same.symm))
    exact .beginning ((slotValue?_of_keptFor move keeps ofKind noCall noFirst).trans empty)
      (same.trans only) (unmade.next noFirst) calls isKind first
      (atWork.next_of_keeps move isFirst only (same.trans only))
  | begins begins isFor step left kept =>
    obtain ⟨r, current, rfl, calls, there⟩ | ⟨h', type', kind', rfl, calls', isKind', -, -⟩ :=
      begins.calls_or_callsHook isFor step
    · rw [empty] at there
      cases there
    · rw [noHook _ (calls'.hookAt?_eq isKind') rfl] at beginning
      cases beginning
  | @ends keep a kept isFor top =>
    have none_left : keptFor i k (ws (m + 1)).stack = [] :=
      (List.cons.inj ((keptFor_of_popped kept isFor top).symm.trans only)).2
    by_cases made : ∃ type ended v, MakesFirst i k type ended v (ws m) (ws (m + 1))
    · obtain ⟨type', ended, v, makes⟩ := made
      have value := makes.slotValue?_eq
      obtain ⟨top, ends, found, rfl, step⟩ := id makes
      obtain ⟨same, rfl⟩ := atWork.top_of_only isFirst only top rfl
        (by simp [Keep.isFor, Keep.isFirst])
      cases same
      have initial : Initial ws i k m h _ :=
        ⟨calls, first, ⟨atWork, top, ends⟩, makes, unmade⟩
      exact .settled ⟨value, Slots.fits_firstValue isKind first ended,
        ⟨Nat.lt_succ_self m, initial, .none, .none⟩⟩ none_left
    · have noFirst : ∀ type ended v, ¬MakesFirst i k type ended v (ws m) (ws (m + 1)) :=
        fun type ended v makes => made ⟨type, ended, v, makes⟩
      exact .blank ((slotValue?_of_keptFor move keeps ofKind noCall noFirst).trans empty)
        none_left (unmade.next noFirst)

/-- A value stays until a call of one of its handles has begun with a program for another one. -/
theorem Recalls.next_of_settled (recalled : Recalled ws i k kind m v)
    (idle : keptFor i k (ws m).stack = []) : Recalls ws i k kind (m + 1) := by
  have le : (keptFor i k (ws m).stack).length ≤ (keptFor i k (ws (m + 1)).stack).length := by
    rw [idle]
    exact Nat.zero_le _
  have recalled' := recalled.next move keeps ofKind (not_settles_of_le le) (not_makesFirst_of_le le)
  cases worked move i k with
  | keeps same => exact .settled recalled' (same.trans idle)
  | begins begins isFor step left kept =>
    rw [idle] at kept
    obtain ⟨r, current, rfl, calls, there⟩ | ⟨h, type, kind', rfl, calls, isKind, -, unfit⟩ :=
      begins.calls_or_callsHook isFor step
    · obtain rfl : v = current := Option.some.inj (recalled.value.symm.trans there)
      exact .changing recalled' kept calls (.of_begun left)
    · obtain rfl := ofKind h kind' calls isKind
      have misfit := unfit v recalled.value
      rw [recalled.fits] at misfit
      cases misfit
  | ends kept isFor top =>
    rw [keptFor_of_popped kept isFor top] at idle
    cases idle

/-- While the program of a call is at work no other one is begun, and when it is over the call is
the latest of those that are told of. -/
theorem Recalls.next_of_changing {r : Revision (Program H)} {p : Program H}
    {below : List (Activity H)} (recalled : Recalled ws i k kind m v)
    (only : keptFor i k (ws m).stack = [.change i k v])
    (calls : Calls i k r v p (ws b) (ws (b + 1)))
    (atWork : IsAtWork ws (.change i k v) p below b m)
    (noHandle : ∀ call ∈ (ws m).handleAt?, call.1 = i → (ws m).isChanging i call.2 = false) :
    Recalls ws i k kind (m + 1) := by
  have isChange : (Keep.change i k v).isFor i k = true := by
    simp [Keep.isFor, Keep.isChange]
  have changing : (ws m).isChanging i k = true :=
    isChanging_of_mem (only ▸ List.mem_singleton_self (Keep.change i k v))
  have noFirst : ∀ type ended v, ¬MakesFirst i k type ended v (ws m) (ws (m + 1)) := by
    intro type ended v makes
    rw [makes.keptFor_eq] at only
    cases only
  cases worked move i k with
  | keeps same =>
    have noCall := not_settles_of_le (Nat.le_of_eq (congrArg List.length same.symm))
    exact .changing (recalled.next move keeps ofKind noCall noFirst) (same.trans only) calls
      (atWork.next_of_keeps move isChange only (same.trans only))
  | begins begins isFor step left kept =>
    obtain ⟨r, current, rfl, calls', -⟩ | ⟨h, type, kind', rfl, calls', isKind, -, unfit⟩ :=
      begins.calls_or_callsHook isFor step
    · rw [noHandle _ calls'.handleAt?_eq rfl] at changing
      cases changing
    · obtain rfl := ofKind h kind' calls' isKind
      have misfit := unfit v recalled.value
      rw [recalled.fits] at misfit
      cases misfit
  | @ends keep a kept isFor top =>
    have none_left : keptFor i k (ws (m + 1)).stack = [] :=
      (List.cons.inj ((keptFor_of_popped kept isFor top).symm.trans only)).2
    by_cases settled : ∃ current u, Settles i k current u (ws m) (ws (m + 1))
    · obtain ⟨current, u, settles⟩ := settled
      obtain ⟨top, step⟩ := id settles
      obtain ⟨same, rfl⟩ := atWork.top_of_only isChange only top rfl
        (by simp [Keep.isFor, Keep.isChange])
      cases same
      have applies : Applies ws i k ⟨v, u⟩ b m := ⟨calls, ⟨atWork, top, .give u⟩⟩
      exact .settled ⟨settles.slotValue?_eq recalled.value, SlotKind.fits_revised recalled.fits u,
        recalled.recounts.call applies⟩ none_left
    · have noCall : ∀ current u, ¬Settles i k current u (ws m) (ws (m + 1)) :=
        fun current u settles => settled ⟨current, u, settles⟩
      exact .settled (recalled.next move keeps ofKind noCall noFirst) none_left

end Next

section Run

variable (run : Run ws n) (blank : (ws 0).IsBlank i) (inOrder : InOrder ws n i kinds)
  (oneByOne : OneByOne ws n i)

include run blank inOrder oneByOne

theorem Run.recalls (keeps : (kinds k).keeps = true) (le : m ≤ n) :
    Recalls ws i k (kinds k) m := by
  induction m with
  | zero => exact .blank (blank.empty k) (blank.idle k) fun l lt => absurd lt (Nat.not_lt_zero l)
  | succ m ih =>
    have move := run.next m le
    have ofKind : ∀ h kind, CallsHook i k h (ws m) (ws (m + 1)) → h.kind? = some kind →
        kind = kinds k :=
      fun h kind calls isKind => inOrder m le _ (calls.hookAt?_eq isKind) rfl
    cases ih (Nat.le_of_succ_le le) with
    | blank empty idle unmade => exact .next_of_blank move keeps ofKind empty idle unmade
    | beginning empty only unmade calls isKind first atWork =>
      exact .next_of_beginning move keeps ofKind empty only unmade calls isKind first atWork
        (oneByOne.hooks m le)
    | settled recalled idle => exact .next_of_settled move keeps ofKind recalled idle
    | changing recalled only calls atWork =>
      exact .next_of_changing move keeps ofKind recalled only calls atWork (oneByOne.calls m le)

/-- What a hook returns is what the calls have made of the first value. -/
theorem Run.recounts (keeps : (kinds k).keeps = true) (lt : m < n)
    (returns : Returns i k h v (ws m) (ws (m + 1))) : Recounts SlotValue.revised ws i k m v := by
  have isKind := returns.kind?_eq (inOrder m lt)
  have recounts {u : SlotValue} (recalled : Recalled ws i k (kinds k) m u) :
      Recounts SlotValue.revised ws i k m v := by
    obtain ⟨rfl, -⟩ := returns.of_some isKind keeps recalled.value recalled.fits
    exact recalled.recounts
  cases run.recalls blank inOrder oneByOne keeps (Nat.le_of_lt lt) with
  | blank empty => exact absurd empty (returns.slotValue?_ne_none isKind keeps)
  | beginning empty => exact absurd empty (returns.slotValue?_ne_none isKind keeps)
  | settled recalled => exact recounts recalled
  | changing recalled => exact recounts recalled

/-- The value that a call compares its result with is the one that is there. -/
theorem Run.slotValue?_of_settles (keeps : (kinds k).keeps = true) (lt : m < n)
    (settles : Settles i k current u (ws m) (ws (m + 1))) :
    (ws m).slotValue? i k = some current := by
  have atWork := settles.keptFor_eq
  cases run.recalls blank inOrder oneByOne keeps (Nat.le_of_lt lt) with
  | blank empty idle =>
    rw [idle] at atWork
    cases atWork
  | beginning empty only =>
    rw [only] at atWork
    cases atWork
  | settled recalled idle =>
    rw [idle] at atWork
    cases atWork
  | changing recalled only =>
    rw [only] at atWork
    obtain ⟨same, -⟩ := List.cons.inj atWork
    cases same
    exact recalled.value

end Run

/-- A call comes to its result before the next one for the same slot is made. -/
theorem Applies.lt_of_lt {c' : Call} {b' e e' : Nat} (applies : Applies ws i k c b e)
    (after : Applies ws i k c' b' e') (lt : b < b') (oneByOne : OneByOne ws n i) (inRun : b' < n) :
    e < b' := by
  obtain ⟨-, ⟨atWork, -, -⟩⟩ := applies
  obtain ⟨calls, -⟩ := after
  refine Nat.lt_of_not_le fun le => ?_
  obtain ⟨above, a, stack, kept⟩ := atWork.stands b' lt le
  have changing : (ws b').isChanging i k = true := by
    refine List.any_eq_true.mpr ⟨a, by simp [stack], ?_⟩
    simp [kept, Keep.isChange]
  rw [oneByOne.calls b' inRun _ calls.handleAt?_eq rfl] at changing
  cases changing

/-! ## Cells -/

/-- Which value is the first is certain. -/
theorem Initial.unique {h' : Hook H} {v' : SlotValue} (initial : Initial ws i k a h v)
    (again : Initial ws i k b h' v') : b = a ∧ v' = v := by
  obtain ⟨-, -, -, makes, unmade⟩ := initial
  obtain ⟨-, -, -, makes', unmade'⟩ := again
  obtain rfl : b = a := by
    rcases Nat.lt_trichotomy a b with sooner | same | later
    · exact absurd makes (unmade' a sooner _ _ _)
    · exact same.symm
    · exact absurd makes' (unmade b later _ _ _)
  exact ⟨rfl, Option.some.inj (makes'.slotValue?_eq.symm.trans makes.slotValue?_eq)⟩

/-- No call makes another cell of the first one. -/
theorem Leads.eq_of_cell {cell : Nat} (leads : Leads SlotValue.revised (.cell cell) cs v) :
    v = .cell cell := by
  induction leads with
  | none => rfl
  | call before ih => rw [ih, SlotValue.revised_cell]

/-- The first value is of the type that hooks for the slot have. -/
theorem Initial.fits (initial : Initial ws i k a h v) (inOrder : InOrder ws n i kinds)
    (lt : a < n) : (kinds k).fits v = true := by
  obtain ⟨calls, first, ⟨atWork, -, -⟩, ⟨-, -, -, value, -⟩, -⟩ := initial
  obtain ⟨kind, isKind, -⟩ := Hook.exists_kind?_of_first? first
  obtain rfl : kind = kinds k :=
    inOrder _ (Nat.lt_trans atWork.lt lt) _ (calls.hookAt?_eq isKind) rfl
  exact value ▸ Slots.fits_firstValue isKind first _

theorem Recounts.exists_initial_cell (recounts : Recounts SlotValue.revised ws i k m v)
    (inOrder : InOrder ws n i kinds) (le : m ≤ n) (ofCell : kinds k = .cell) :
    ∃ a h, Initial ws i k a h v := by
  obtain @⟨a, h, v₀, cs, lt, initial, -, leads⟩ := recounts
  have fits := initial.fits inOrder (Nat.lt_of_lt_of_le lt le)
  rw [ofCell] at fits
  cases v₀ with
  | cell cell => exact ⟨a, h, leads.eq_of_cell ▸ initial⟩
  | _ => cases fits

/-! ## Elements whose hooks come in order -/

/-- The slots of element `i` have histories of their own. -/
structure SlotHistories (ws : Nat → World H) (n i : Nat) (kinds : Nat → SlotKind) : Prop where
  /-- A hook for state returns its first value with what the calls of its handles made of it. -/
  recounts : ∀ m < n, ∀ k h v, (kinds k).keeps = true → Returns i k h v (ws m) (ws (m + 1)) →
    Recounts SlotValue.revised ws i k m v
  /-- Calls for one slot come to their results in the order in which they are made. -/
  sequential : ∀ k c c' b b' e e', Applies ws i k c b e → Applies ws i k c' b' e' → b < b' →
    b' < n → e < b'
  /-- The handle that a hook gives out is for the slot of the hook. -/
  handles : ∀ m < n, ∀ k h v, Returns i k h v (ws m) (ws (m + 1)) →
    ∀ x computed, ∀ slot ∈ h.handle? (((ws m).rendering i x computed k).answer h).1, slot = k
  /-- A cell is the same in every render. -/
  cells : ∀ m < n, ∀ m' < n, ∀ k h h' v v', kinds k = .cell →
    Returns i k h v (ws m) (ws (m + 1)) → Returns i k h' v' (ws m') (ws (m' + 1)) → v' = v
  /-- A call leaves alone what any hook returns in another slot. -/
  apart : ∀ m < n, ∀ j l, PartOfCall j l (ws m) (ws (m + 1)) → ∀ k, (j, l) ≠ (i, k) →
    ∀ x x', (ws m).instances[i]? = some x → (ws (m + 1)).instances[i]? = some x' →
      ∀ computed h, (((ws (m + 1)).rendering i x' computed k).answer h).1 =
        (((ws m).rendering i x computed k).answer h).1
  /-- When a call is made no render is asked for. -/
  begins : ∀ m < n, ∀ k, (ws m).handleAt? = some (i, k) → (ws m).step? = some (ws (m + 1)) →
    ¬Asks i (ws m) (ws (m + 1)) ∧ (ws (m + 1)).standing i = (ws m).standing i
  /-- When a call comes to a result, a render is asked for exactly when the result differs from the
  value of the slot. -/
  asks : ∀ m < n, ∀ k current u, (kinds k).keeps = true →
    Settles i k current u (ws m) (ws (m + 1)) → (ws m).slotValue? i k = some current ∧
      (Asks i (ws m) (ws (m + 1)) ↔ current.differs u = true) ∧
        (ws (m + 1)).standing i =
          if current.differs u then ((ws m).standing i).asked else (ws m).standing i

/-- Whatever is done in a run that begins before the first render of an element, the slots of the
element are kept apart if its hooks come in order and what is done for a slot is done one by one,
and what they return is told by the calls. -/
theorem Run.slotHistories (run : Run ws n) (blank : (ws 0).IsBlank i)
    (inOrder : InOrder ws n i kinds) (oneByOne : OneByOne ws n i) : SlotHistories ws n i kinds where
  recounts m lt k h v keeps returns := run.recounts blank inOrder oneByOne keeps lt returns
  sequential k c c' b b' e e' applies after lt inRun := applies.lt_of_lt after lt oneByOne inRun
  handles m lt k h v returns x computed slot handle :=
    RenderState.handle?_answer _ h slot handle
  cells m lt m' lt' k h h' v v' ofCell returns returns' := by
    have keeps : (kinds k).keeps = true := by rw [ofCell]; rfl
    have recounts := run.recounts blank inOrder oneByOne keeps lt returns
    have recounts' := run.recounts blank inOrder oneByOne keeps lt' returns'
    obtain ⟨a, h₀, initial⟩ := recounts.exists_initial_cell inOrder (Nat.le_of_lt lt) ofCell
    obtain ⟨b, h₁, again⟩ := recounts'.exists_initial_cell inOrder (Nat.le_of_lt lt') ofCell
    exact (initial.unique again).2
  apart m lt j l part k apart x x' found found' computed h :=
    part.answer_eq apart found found' computed h
  begins m lt k calls step := ⟨not_asks_of_handleAt? calls, standing_of_handleAt? calls step⟩
  asks m lt k current u keeps settles := by
    have there := run.slotValue?_of_settles blank inOrder oneByOne keeps lt settles
    obtain ⟨x, found, -⟩ := found_of_slotValue? there
    exact ⟨there, settles.asks_iff found, settles.standing_eq found⟩

/-- An element that counts and keeps a cell. -/
def tally : Element Unit where
  name := "x-tally".toList
  render := .hook (.useInt (.give (.int 5))) fun _ => .hook (.useCell (.give (.int 0))) fun _ =>
    .finish ⟨.ok (.static "tallied".toList), []⟩

/-- It is rendered, its counter is changed twice, first by a function that asks for a render itself
and then to what it is already, and it is rendered again. -/
def tallied : World Unit :=
  hosting tally (.render 0 fun _ =>
    .revise 0 0 (.int fun n => .request 0 .update (.give (.int (n + 1))))
      (.revise 0 0 (.int fun _ => .give (.int 6)) (.render 0 fun _ => .skip)))

def tallyKind (k : Nat) : SlotKind := if k = 0 then .int else .cell

theorem slotHistories_tallied :
    SlotHistories (tallied.run ·) 16 0 tallyKind ∧
      Recounts SlotValue.revised (tallied.run ·) 0 0 14 (.int 6) := by
  have busy : ∀ k < 16, (tallied.run k).stack ≠ [] := by decide
  have inOrder : InOrder (tallied.run ·) 16 0 tallyKind := by unfold InOrder; decide
  have oneByOne : OneByOne (tallied.run ·) 16 0 := ⟨by decide, by decide⟩
  have histories := Run.slotHistories ((reachable_hosting _ _).runOn busy)
    ⟨fun _ => rfl, fun _ => rfl⟩ inOrder oneByOne
  refine ⟨histories, histories.recounts 14 (by decide) 0 (.useInt (.give (.int 5))) (.int 6) rfl ?_⟩
  exact ⟨rfl, rfl, rfl, rfl, step?_run (busy 14 (by decide))⟩

/-! ### What would go too far -/

/-- A value is what the calls before move `m` make of the first one in some order. -/
inductive RecountsInSomeOrder (change : SlotValue → SlotValue → SlotValue) (ws : Nat → World H)
    (i k m : Nat) (v : SlotValue) : Prop
  | intro {a : Nat} {h : Hook H} {v₀ : SlotValue} {cs order : List Call}
    (initial : Initial ws i k a h v₀) (revisions : Revisions ws i k (a + 1) m cs)
    (perm : order.Perm cs) (leads : Leads change v₀ order v)

/-- The call for slot `k` of element `i` that comes to a result in the next step. -/
def settlesAt? (w : World H) (i k : Nat) : Option Call :=
  match w.stack with
  | .program (.give u) (some (.change j l current)) :: _ =>
    if j = i ∧ l = k then some ⟨current, u⟩ else none
  | _ => none

theorem Revisions.le (revisions : Revisions ws i k a b cs) : a ≤ b := by
  induction revisions with
  | none => exact Nat.le_refl a
  | call before applies ih => exact Nat.le_succ_of_le ih
  | other before quiet ih => exact Nat.le_succ_of_le ih

/-- Which calls there are can be read off the steps. -/
theorem eq_of_revisions (revisions : Revisions ws i k a b cs)
    (steps : ∀ m < b, (ws m).step? = some (ws (m + 1))) :
    cs = (List.range' a (b - a)).filterMap fun m => (ws m).settlesAt? i k := by
  induction revisions with
  | none => simp
  | @call b s cs c before applies ih =>
    obtain ⟨-, ⟨-, ended, ends⟩⟩ := applies
    cases ends
    have last : (ws b).settlesAt? i k = some c := by simp [settlesAt?, ended]
    rw [Nat.succ_sub before.le, List.range'_1_concat, List.filterMap_append,
      ← ih fun m lt => steps m (Nat.lt_succ_of_lt lt), Nat.add_sub_cancel' before.le]
    simp [last]
  | @other b cs before quiet ih =>
    have last : (ws b).settlesAt? i k = none := by
      unfold settlesAt?
      split
      · next u j l current stack top =>
        refine if_neg ?_
        rintro ⟨rfl, rfl⟩
        exact quiet current u ⟨top, steps b (Nat.lt_succ_self b)⟩
      · rfl
    rw [Nat.succ_sub before.le, List.range'_1_concat, List.filterMap_append,
      ← ih fun m lt => steps m (Nat.lt_succ_of_lt lt), Nat.add_sub_cancel' before.le]
    simp [last]

/-- Calls that were all run on the first value, and made others of it, cannot have come one after
the other. -/
theorem Leads.length_le_one {v₀ : SlotValue} (leads : Leads change v₀ cs v)
    (alike : ∀ c ∈ cs, c.argument = v₀ ∧ change v₀ c.result ≠ v₀) : cs.length ≤ 1 := by
  cases leads with
  | none => exact Nat.zero_le 1
  | @call cs c before =>
    generalize same : c.argument = between at before
    cases before with
    | none => exact Nat.le_refl 1
    | @call cs c' before =>
      obtain ⟨argument, -⟩ := alike c (by simp)
      obtain ⟨argument', differs⟩ := alike c' (by simp)
      rw [argument'] at same
      exact absurd (same.symm.trans argument) differs

/-- A run begins with a render whose first hook is given a value in the next step. -/
theorem initial_run {next : h.Answer → Render H} {p : Program H} {computed : Keyed Json}
    {purpose : Purpose H} {stack : List (Activity H)} {x : Instance H} {type : ValueType}
    (busy : ∀ k < n, (w.run k).stack ≠ []) (lt : 2 < n) (first : h.first? = some (type, .give v))
    (start : w.stack = .program p none :: stack)
    (top : (w.run 1).stack = .render i (.hook h next) computed k purpose :: stack)
    (begun : (w.run 2).stack = .program (.give v) (some (.first i k type)) :: (w.run 1).stack)
    (found : (w.run 1).instances[i]? = some x) (found' : (w.run 2).instances[i]? = some x) :
    Initial (w.run ·) i k 2 h (x.slots.firstValue type (some v)) := by
  have calls : CallsHook i k h (w.run 1) (w.run 2) :=
    ⟨top, found, step?_run (busy 1 (Nat.lt_of_succ_lt lt))⟩
  refine ⟨calls, first, ⟨.of_begun begun, begun, .give v⟩,
    ⟨begun, .give v, found', rfl, step?_run (busy 2 lt)⟩, ?_⟩
  rintro l before type' ended u ⟨top', -, -, -, -⟩
  match l, before, top' with
  | 0, _, top' => cases top'.symm.trans start
  | 1, _, top' => cases top'.symm.trans top

/-- What is left behind a single call. -/
theorem Leads.eq_of_single {v₀ : SlotValue} (leads : Leads change v₀ [c] v) :
    v = change c.argument c.result := by
  generalize single : [c] = calls at leads
  cases leads with
  | none => cases single
  | @call cs c' before =>
    have whole : [] ++ [c] = cs ++ [c'] := single
    obtain ⟨-, last⟩ := List.append_inj' whole rfl
    cases last
    rfl

def widthFirst : Json := .obj [("width".toList, .int 1), ("height".toList, .int 2)]

def heightFirst : Json := .obj [("height".toList, .int 2), ("width".toList, .int 1)]

/-- An element with an object in its state. -/
def sized : Element Unit where
  name := "x-sized".toList
  render := .hook (.useState (.give (.json widthFirst))) fun _ =>
    .finish ⟨.ok (.static "sized".toList), []⟩

/-- It is rendered, its object is set to one with the members in another order, and it is rendered
again. -/
def resized : World Unit :=
  hosting sized (.render 0 fun _ => .revise 0 0 (.json fun _ => .give (.json heightFirst))
    (.render 0 fun _ => .skip))

/-- An element that counts from zero. -/
def counting : Element Unit where
  name := "x-counting".toList
  render := .hook (.useInt (.give (.int 0))) fun _ => .finish ⟨.ok (.static "counting".toList), []⟩

/-- It is rendered, its counter is changed by a function that sets the counter to ten and then ends
with the successor of what it has been called with, and it is rendered again. -/
def overtaken : World Unit :=
  hosting counting (.render 0 fun _ =>
    .revise 0 0 (.int fun n => .revise 0 0 (.int fun _ => .give (.int 10)) (.give (.int (n + 1))))
      (.render 0 fun _ => .skip))

/-- Objects are equal whatever the order of their members is, so it is the old one that stays. And
what is set while a function is at work is lost when the function ends. -/
theorem not_recounts_applied :
    (¬∀ (ws : Nat → World Unit) (n i : Nat) (kinds : Nat → SlotKind), Run ws n →
      (ws 0).IsBlank i → InOrder ws n i kinds → OneByOne ws n i →
        ∀ m < n, ∀ k h v, (kinds k).keeps = true → Returns i k h v (ws m) (ws (m + 1)) →
          RecountsInSomeOrder (fun _ u => u) ws i k m v) ∧
      ¬∀ (ws : Nat → World Unit) (n i : Nat) (kinds : Nat → SlotKind), Run ws n →
        (ws 0).IsBlank i → InOrder ws n i kinds →
          ∀ m < n, ∀ k h v, (kinds k).keeps = true → Returns i k h v (ws m) (ws (m + 1)) →
            RecountsInSomeOrder SlotValue.revised ws i k m v := by
  constructor
  · intro claimed
    have busy : ∀ k < 9, (resized.run k).stack ≠ [] := by decide
    have inOrder : InOrder (resized.run ·) 9 0 fun _ => .json := by unfold InOrder; decide
    have oneByOne : OneByOne (resized.run ·) 9 0 := ⟨by decide, by decide⟩
    have stepped (k : Nat) (lt : k < 9) := step?_run (w := resized) (busy k lt)
    have again : Returns 0 0 (.useState (.give (.json widthFirst))) (.json widthFirst)
        (resized.run 8) (resized.run 9) := ⟨rfl, rfl, rfl, rfl, stepped 8 (by decide)⟩
    obtain @⟨a, h, v₀, cs, order, initial, revisions, perm, leads⟩ := claimed (resized.run ·) 9 0
      (fun _ => .json) ((reachable_hosting _ _).runOn busy) ⟨fun _ => rfl, fun _ => rfl⟩ inOrder
      oneByOne 8 (by decide) 0 _ _ rfl again
    have first : Initial (resized.run ·) 0 0 2 (.useState (.give (.json widthFirst))) _ :=
      initial_run busy (by decide) rfl rfl rfl rfl rfl rfl
    obtain ⟨rfl, rfl⟩ := first.unique initial
    obtain rfl : cs = [⟨.json widthFirst, .json heightFirst⟩] :=
      eq_of_revisions revisions fun m lt => stepped m (Nat.lt_succ_of_lt lt)
    obtain rfl := List.perm_singleton.mp perm
    cases leads.eq_of_single
  · intro claimed
    have busy : ∀ k < 11, (overtaken.run k).stack ≠ [] := by decide
    have inOrder : InOrder (overtaken.run ·) 11 0 fun _ => .int := by unfold InOrder; decide
    have stepped (k : Nat) (lt : k < 11) := step?_run (w := overtaken) (busy k lt)
    have again : Returns 0 0 (.useInt (.give (.int 0))) (.int 1) (overtaken.run 10)
        (overtaken.run 11) := ⟨rfl, rfl, rfl, rfl, stepped 10 (by decide)⟩
    obtain @⟨a, h, v₀, cs, order, initial, revisions, perm, leads⟩ := claimed (overtaken.run ·)
      11 0 (fun _ => .int) ((reachable_hosting _ _).runOn busy) ⟨fun _ => rfl, fun _ => rfl⟩ inOrder
      10 (by decide) 0 _ _ rfl again
    have first : Initial (overtaken.run ·) 0 0 2 (.useInt (.give (.int 0))) _ :=
      initial_run busy (by decide) rfl rfl rfl rfl rfl rfl
    obtain ⟨rfl, rfl⟩ := first.unique initial
    obtain rfl : cs = [⟨.int 0, .int 10⟩, ⟨.int 0, .int 1⟩] :=
      eq_of_revisions revisions fun m lt => stepped m (Nat.lt_succ_of_lt lt)
    have short := leads.length_le_one fun c mem => by
      obtain rfl | rfl : c = ⟨.int 0, .int 10⟩ ∨ c = ⟨.int 0, .int 1⟩ := by
        simpa using perm.mem_iff.mp mem
      · exact ⟨rfl, nofun⟩
      · exact ⟨rfl, nofun⟩
    rw [perm.length_eq] at short
    exact absurd short (by decide)

end World

end LiveMarkup
