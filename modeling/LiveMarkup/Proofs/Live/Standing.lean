import LiveMarkup.Proofs.Live.Runs

/-!
# Where an instance stands

What the render queue and the passes know of one instance: whether it is dirty, how often it waits
in the queue, and how many passes of it are being made. There are three ways to stand in the worlds
of runs: clean, waiting for a pass, or in one; `Turn` says how a move leads from one to another. A
request made during a pass finds the instance dirty and leaves nothing behind, so that the end of
the pass makes it clean all the same.
-/

namespace LiveMarkup

variable {H : Type}

/-- How an instance stands with the render queue. -/
structure Standing where
  dirty : Bool
  /-- How often it waits in the queue. -/
  waits : Nat
  /-- How many passes of it are being made. -/
  passes : Nat

namespace Standing

def clean : Standing := ⟨false, 0, 0⟩

def waiting : Standing := ⟨true, 1, 0⟩

def passing : Standing := ⟨true, 0, 1⟩

/-- In the middle of a move: dirty, and neither in the queue nor in a pass. -/
def taken : Standing := ⟨true, 0, 0⟩

/-- The ways to stand in the worlds of runs. -/
inductive Proper : Standing → Prop
  | clean : Proper clean
  | waiting : Proper waiting
  | passing : Proper passing

/-- After a request for a render. -/
def asked (s : Standing) : Standing :=
  if s.dirty then s else { s with dirty := true, waits := s.waits + 1 }

theorem asked_of_dirty {s : Standing} (dirty : s.dirty = true) : s.asked = s := if_pos dirty

theorem dirty_asked (s : Standing) : s.asked.dirty = true := by
  unfold asked
  split
  · assumption
  · rfl

theorem Proper.eq_waiting {s : Standing} (proper : s.Proper) (waits : 0 < s.waits) :
    s = .waiting := by
  cases proper with
  | clean => cases waits
  | waiting => rfl
  | passing => cases waits

theorem Proper.eq_passing {s : Standing} (proper : s.Proper) (passes : 0 < s.passes) :
    s = .passing := by
  cases proper with
  | clean => cases passes
  | waiting => cases passes
  | passing => rfl

theorem Proper.waits_iff {s : Standing} (proper : s.Proper) :
    s.waits ≤ 1 ∧ (s.passes = 0 → (s.dirty = true ↔ 0 < s.waits)) ∧
      (0 < s.passes → s.waits = 0) := by
  cases proper with
  | clean => decide
  | waiting => decide
  | passing => decide

/-- A request leaves an instance in the queue unless a pass of it is being made. -/
theorem Proper.asked_waits {s : Standing} (proper : s.Proper) :
    0 < s.asked.waits ↔ ¬ 0 < s.passes := by
  cases proper with
  | clean => decide
  | waiting => decide
  | passing => decide

theorem clean_ne_waiting : clean ≠ waiting := nofun

theorem waiting_ne_passing : waiting ≠ passing := nofun

end Standing

namespace World

variable {w w' : World H} {i j : Nat}

/-- How instance `i` stands. -/
def standing (w : World H) (i : Nat) : Standing where
  dirty := w.isDirty i
  waits := w.renders.items.count i
  passes := w.stack.countP (Activity.isPass i)

theorem standing_congr (instances : w'.instances = w.instances) (renders : w'.renders = w.renders)
    (passes : w'.stack.countP (Activity.isPass i) = w.stack.countP (Activity.isPass i)) :
    w'.standing i = w.standing i := by
  unfold standing isDirty
  rw [instances, renders, passes]

theorem waits_pos : 0 < (w.standing i).waits ↔ i ∈ w.renders.items := List.count_pos_iff

theorem passes_pos : 0 < (w.standing i).passes ↔ w.inPass i = true := by
  rw [inPass, List.any_eq_true]
  exact List.countP_pos_iff

theorem exists_of_isDirty (dirty : w.isDirty i = true) : ∃ x, w.instances[i]? = some x := by
  unfold isDirty at dirty
  cases found : w.instances[i]? with
  | none =>
    rw [found] at dirty
    cases dirty
  | some x => exact ⟨x, rfl⟩

/-! ## Changes -/

theorem isDirty_modify (change : Instance H → Instance H)
    (keeps : ∀ x, (change x).dirty = x.dirty) : (w.modify j change).isDirty i = w.isDirty i := by
  unfold isDirty modify
  rw [List.getElem?_modify]
  cases w.instances[i]? with
  | none => rfl
  | some x =>
    by_cases same : j = i
    · simp [same, keeps]
    · simp [same]

theorem isDirty_modify_dirty (dirty : Bool) :
    (w.modify j ({ · with dirty })).isDirty i =
      if j = i then (w.instances[i]?).isSome && dirty else w.isDirty i := by
  unfold isDirty modify
  rw [List.getElem?_modify]
  cases w.instances[i]? with
  | none => simp
  | some x =>
    by_cases same : j = i
    · simp [same]
    · simp [same]

theorem standing_modify (change : Instance H → Instance H)
    (keeps : ∀ x, (change x).dirty = x.dirty) : (w.modify j change).standing i = w.standing i := by
  unfold standing
  rw [isDirty_modify change keeps]
  rfl

theorem standing_clear :
    (w.modify j ({ · with dirty := false })).standing i =
      if j = i then { w.standing i with dirty := false } else w.standing i := by
  unfold standing
  rw [isDirty_modify_dirty, Bool.and_false]
  split
  · rfl
  · rfl

theorem standing_create (e : Element H) : (w.create e).standing i = w.standing i := by
  have same : (w.create e).isDirty i = w.isDirty i := by
    unfold isDirty create
    by_cases lt : i < w.instances.length
    · rw [List.getElem?_append_left lt]
    · rw [List.getElem?_append_right (Nat.le_of_not_lt lt),
        List.getElem?_eq_none (Nat.le_of_not_lt lt)]
      cases i - w.instances.length with
      | zero => rfl
      | succ k => rfl
  unfold standing
  rw [same]
  rfl

theorem standing_queue (runner : Runner) (job : Job H) :
    (w.queue runner job).standing i = w.standing i := by
  cases runner with
  | microtask => rfl
  | task => rfl

theorem standing_schedule (wasEmpty : Bool) (runner : Runner) (q : QueueId) :
    (w.schedule wasEmpty runner q).standing i = w.standing i := by
  unfold schedule
  split
  · exact standing_queue _ _
  · rfl

theorem standing_pushRender :
    (w.pushRender j).standing i =
      if j = i then { w.standing i with waits := (w.standing i).waits + 1 } else w.standing i := by
  simp only [pushRender, RunQueue.push, standing_schedule]
  simp only [standing, List.count_append, List.count_singleton, beq_iff_eq]
  split
  · rfl
  · rfl

theorem standing_pushEffects : (w.pushEffects j).standing i = w.standing i := by
  simp only [pushEffects, RunQueue.push, standing_schedule]
  exact standing_schedule _ _ _

theorem standing_pushCustom (k : Nat) (p : Program H) :
    (w.pushCustom k p).standing i = w.standing i := by
  unfold pushCustom
  split
  · rfl
  · exact standing_schedule _ _ _

theorem standing_update_other (other : j ≠ i) : (w.update j).standing i = w.standing i := by
  unfold update
  split
  · rfl
  · split
    · rfl
    · rw [standing_pushRender, if_neg other, standing, isDirty_modify_dirty, if_neg other]
      rfl

/-- A request makes an instance dirty that is there, and lets it wait unless it was dirty. -/
theorem standing_update {x : Instance H} (found : w.instances[i]? = some x) :
    (w.update i).standing i = (w.standing i).asked := by
  have isDirty : (w.standing i).dirty = x.dirty := by simp [standing, World.isDirty, found]
  simp only [update, found, Standing.asked, isDirty]
  split
  · rfl
  · rw [standing_pushRender, if_pos rfl, standing, isDirty_modify_dirty, if_pos rfl, found]
    rfl

theorem standing_of_change (change : Change w w') :
    w'.standing i = w.standing i ∨ w'.standing i = (w.standing i).asked := by
  cases change with
  | modify j change keeps => exact .inl (standing_modify change keeps)
  | create e => exact .inl (standing_create e)
  | tell notices host => exact .inl rfl
  | start a plain =>
    refine .inl (standing_congr rfl rfl ?_)
    rw [List.countP_cons, Activity.not_isPass_of_isPlain plain]
    rfl
  | queue runner p => exact .inl (standing_queue _ _)
  | update j =>
    by_cases same : j = i
    · subst same
      cases found : w.instances[j]? with
      | none => exact .inl (by rw [update, found])
      | some x => exact .inr (standing_update found)
    · exact .inl (standing_update_other same)
  | pushEffects j => exact .inl standing_pushEffects
  | pushCustom k p => exact .inl (standing_pushCustom k p)

theorem standing_of_changes (changes : Changes w w') :
    w'.standing i = w.standing i ∨ w'.standing i = (w.standing i).asked := by
  induction changes with
  | refl => exact .inl rfl
  | tail _ change ih =>
    rcases standing_of_change (i := i) change with same | asked
    · rw [same]
      exact ih
    · right
      rw [asked]
      rcases ih with same | asked
      · rw [same]
      · rw [asked, Standing.asked_of_dirty (Standing.dirty_asked _)]

/-! ## Moves -/

/-- The move from `w` to `w'` starts a pass of instance `i`. -/
def StartsPass (i : Nat) (w w' : World H) : Prop :=
  ∃ x, w.instances[i]? = some x ∧
    w'.stack = .render i x.element.render (x.element.computed x.state) 0 .pass :: w.stack

/-- What a move does to the standing of instance `i`. -/
inductive Turn (i : Nat) (w w' : World H) : Prop
  | keeps (same : w'.standing i = w.standing i)
  | asks (before : w.standing i = .clean) (after : w'.standing i = .waiting)
  | skips (gone : w.isConnected i = false) (before : w.standing i = .waiting)
    (after : w'.standing i = .clean)
  | begins (starts : StartsPass i w w') (before : w.standing i = .waiting)
    (after : w'.standing i = .passing)
  | ends (before : w.standing i = .passing) (after : w'.standing i = .clean)

theorem Turn.proper (turn : Turn i w w') (proper : (w.standing i).Proper) :
    (w'.standing i).Proper := by
  cases turn with
  | keeps same => exact same ▸ proper
  | asks _ after => exact after ▸ .waiting
  | skips _ _ after => exact after ▸ .clean
  | begins _ _ after => exact after ▸ .passing
  | ends _ after => exact after ▸ .clean

theorem Turn.of_asked (proper : (w.standing i).Proper)
    (changed : w'.standing i = w.standing i ∨ w'.standing i = (w.standing i).asked) :
    Turn i w w' := by
  rcases changed with same | asked
  · exact .keeps same
  · generalize before : w.standing i = s at proper asked
    cases proper with
    | clean => exact .asks before asked
    | waiting => exact .keeps (asked.trans before.symm)
    | passing => exact .keeps (asked.trans before.symm)

/-- The instance that is picked is one that waits, and no other stands differently by it. -/
theorem standing_pick {renders : RunQueue Nat} (proper : (w.standing i).Proper)
    (pick : w.renders.pick = some (j, renders)) :
    j = i ∧ w.standing i = .waiting ∧ { w with renders }.standing i = .taken ∨
      j ≠ i ∧ { w with renders }.standing i = w.standing i := by
  have counted := (RunQueue.perm_of_pick pick).count_eq i
  rw [List.count_cons] at counted
  by_cases same : j = i
  · rw [if_pos (beq_iff_eq.mpr same)] at counted
    have before : w.standing i = .waiting := proper.eq_waiting (by simp [standing, counted])
    have none_left : renders.items.count i = 0 :=
      Nat.succ.inj (counted.symm.trans (congrArg Standing.waits before))
    refine .inl ⟨same, before, ?_⟩
    show ({ w.standing i with waits := renders.items.count i } : Standing) = .taken
    rw [before, none_left]
    rfl
  · rw [if_neg (by simpa using same)] at counted
    refine .inr ⟨same, ?_⟩
    show ({ w.standing i with waits := renders.items.count i } : Standing) = w.standing i
    rw [← Nat.add_zero (List.count _ _), ← counted]
    rfl

theorem known_of_proper (proper : ∀ i, (w.standing i).Proper) : w.Known := by
  intro i stands
  have dirty : (w.standing i).dirty = true := by
    rcases stands with waits | passes
    · rw [(proper i).eq_waiting (waits_pos.mpr waits)]
      rfl
    · rw [(proper i).eq_passing (passes_pos.mpr passes)]
      rfl
  exact exists_of_isDirty dirty

theorem turn_of_stepped (proper : (w.standing i).Proper) (stepped : Stepped w w') :
    Turn i w w' := by
  -- most steps leave the instances, the queue and the passes alone and then make changes
  have changed {v : World H} (changes : Changes v w') (same : v.standing i = w.standing i) :
      Turn i w w' :=
    .of_asked proper (same ▸ standing_of_changes changes)
  have popped {a : Activity H} {stack : List (Activity H)} (top : w.stack = a :: stack)
      (other : a.isPass i = false) : { w with stack }.standing i = w.standing i :=
    standing_congr rfl rfl (by rw [top, List.countP_cons, other]; rfl)
  cases stepped with
  | plain top isPlain changes =>
    exact changed changes (popped top (Activity.not_isPass_of_isPlain isPlain i))
  | microtask top first =>
    refine .keeps (standing_congr rfl rfl ?_)
    rw [top, List.countP_cons, List.countP_cons, List.countP_cons, Job.isPass_activity]
    rfl
  | task top isPlain first =>
    refine .keeps (standing_congr rfl rfl ?_)
    rw [top, List.countP_cons, List.countP_cons, List.countP_cons, Job.isPass_activity,
      Activity.not_isPass_of_isPlain isPlain]
    rfl
  | emptyRenders top empty => exact .keeps (popped top rfl)
  | emptyLayout top empty => exact .keeps (popped top rfl)
  | emptyPassive top empty => exact .keeps (popped top rfl)
  | emptyCustom top empty => exact .keeps (popped top rfl)
  | skip top pick found gone =>
    rcases standing_pick proper pick with ⟨rfl, before, taken⟩ | ⟨other, same⟩
    · refine .skips (by simp [isConnected, found, gone]) before ?_
      rw [standing_clear, if_pos rfl, taken]
      rfl
    · refine .keeps ?_
      rw [standing_clear, if_neg other]
      exact same
  | @pass j x renders stack top pick found here =>
    have counted : ({ w with renders }.startRender j x .pass).standing i =
        { { w with renders }.standing i with
          passes := (w.standing i).passes + if i = j then 1 else 0 } := by
      simp [standing, startRender, isDirty, Activity.isPass, List.countP_cons]
    rcases standing_pick proper pick with ⟨rfl, before, taken⟩ | ⟨other, same⟩
    · refine .begins ⟨x, found, rfl⟩ before ?_
      rw [counted, taken, before, if_pos rfl]
      rfl
    · refine .keeps ?_
      rw [counted, same, if_neg (Ne.symm other)]
      rfl
  | layout top pick changes => exact changed changes rfl
  | passive top pick changes => exact changed changes rfl
  | custom top found pick changes => exact changed changes rfl
  | render top changes =>
    refine changed changes (standing_congr rfl rfl ?_)
    rw [top, List.countP_cons, List.countP_cons]
    rfl
  | @finish j cursor result computed stack w' top changes =>
    by_cases same : j = i
    · subst same
      have during : w.inPass j = true := by simp [inPass, top, Activity.isPass]
      have before := proper.eq_passing (passes_pos.mpr during)
      have taken : { w with stack }.standing j = .taken := by
        have passes : w.stack.countP (Activity.isPass j) = 1 := congrArg Standing.passes before
        have none_left : stack.countP (Activity.isPass j) = 0 := by
          rw [top, List.countP_cons] at passes
          simpa [Activity.isPass] using passes
        show ({ w.standing j with passes := stack.countP (Activity.isPass j) } : Standing) = .taken
        rw [before, none_left]
        rfl
      refine .ends before ?_
      rw [standing_pushEffects, standing_clear, if_pos rfl]
      rcases standing_of_changes (i := j) changes with same | asked
      · rw [same, taken]
        rfl
      · rw [asked, taken]
        rfl
    · have later := standing_of_changes (i := i) changes
      rw [popped top (by simp [Activity.isPass, Ne.symm same])] at later
      refine .of_asked proper ?_
      rw [standing_pushEffects, standing_clear, if_neg same]
      exact later

theorem turn_of_next (proper : ∀ j, (w.standing j).Proper) (next : Next w w') : Turn i w w' := by
  cases next with
  | step step => exact turn_of_stepped (proper i) (stepped (known_of_proper proper) step)
  | create e => exact .keeps (standing_create e)
  | drop j => exact .keeps (standing_modify _ fun _ => rfl)
  | call p rest => exact .of_asked (proper i) (standing_of_change (change_start w p none))

theorem Reachable.proper (reached : Reachable w) (i : Nat) : (w.standing i).Proper := by
  induction reached generalizing i with
  | fresh config queues host => exact .clean
  | next _ next ih => exact (turn_of_next ih next).proper (ih i)

theorem Reachable.known (reached : Reachable w) : w.Known := known_of_proper reached.proper

theorem Reachable.turn (reached : Reachable w) (next : Next w w') (i : Nat) : Turn i w w' :=
  turn_of_next reached.proper next

end World

end LiveMarkup
