import LiveMarkup.Proofs.Live.Contents
import LiveMarkup.Proofs.Live.Seats

/-!
# Updates are gathered

However often a render of an element is asked for, the element waits in the render queue once, from
the first time on. The flush of renders hands the elements over in that order, and makes a pass of
those that are connected then. So each element that has asked has one turn, no other has any, and
each pass looks at what has been written last. Behind the flush all elements are clean.
-/

namespace LiveMarkup

variable {H : Type}

namespace World

variable {w w' : World H} {i j : Nat}

/-! ## Elements in the render queue -/

theorem mem_renders_iff : .element i ∈ (w.queueAt .renders).items ↔ i ∈ w.renders.items := by
  show .element i ∈ w.renders.items.map Item.element ↔ i ∈ w.renders.items
  simp

/-- The oldest are rendered first. -/
theorem Reachable.renders_policy (reached : Reachable w) : w.renders.policy = .fifo := by
  show (w.queueAt .renders).policy = .fifo
  induction reached with
  | fresh config queues host => rfl
  | @next w w' reached next ih =>
    cases reached.queued next .renders with
    | keeps same => rw [queueAt_congr same, ih]
    | pushes pushes =>
      have pushed := pushes.pushed (q := .renders) rfl
      rw [pushed]
      exact ih
    | hands hands =>
      have handed := hands.handed reached.known
      rw [(RunQueue.pick_eq_some handed).1]
      exact ih

theorem Reachable.isDirty_of_waits (reached : Reachable w) (waits : i ∈ w.renders.items) :
    w.isDirty i = true := by
  have stands := (reached.proper i).eq_waiting (waits_pos.mpr waits)
  exact congrArg Standing.dirty stands

/-- A pass stands on a flush of renders. -/
theorem Reachable.flush_of_inPass (reached : Reachable w) (pass : w.inPass i = true) :
    .flush .renders ∈ w.stack.tail := by
  obtain ⟨a, mem, isPass⟩ := List.any_eq_true.mp pass
  obtain ⟨above, below, stack⟩ := List.append_of_mem mem
  have suffix : a :: below <:+ w.stack := stack ▸ List.suffix_append above (a :: below)
  obtain ⟨rest, rfl⟩ := (reached.loopSeated.suffix suffix).1.pass i isPass
  rw [stack]
  cases above with
  | nil => exact List.mem_cons_self
  | cons b above => exact List.mem_append_right _ (List.mem_cons_of_mem _ List.mem_cons_self)

/-- All elements are clean when nothing waits and no flush of renders is at work below. -/
theorem Reachable.clean_of_no_flush (reached : Reachable w) (empty : w.renders.items = [])
    (no_flush : .flush .renders ∉ w.stack.tail) (i : Nat) : w.standing i = .clean := by
  generalize stands : w.standing i = s
  cases stands ▸ reached.proper i with
  | clean => rfl
  | waiting =>
    have waits : i ∈ w.renders.items := waits_pos.mp (stands ▸ Nat.one_pos)
    rw [empty] at waits
    cases waits
  | passing =>
    have pass : w.inPass i = true := passes_pos.mp (stands ▸ Nat.one_pos)
    exact absurd (reached.flush_of_inPass pass) no_flush

/-- A clean element that does not stay so has asked for a render. -/
theorem Reachable.pushes_of_clean (reached : Reachable w) (next : Next w w')
    (clean : w.standing i = .clean) (left : w'.standing i ≠ .clean) :
    Pushes .renders (.element i) w w' := by
  have absent : i ∉ w.renders.items := by
    rw [← waits_pos, clean]
    exact Nat.lt_irrefl 0
  have waits : i ∈ w'.renders.items := by
    cases reached.turn next i with
    | keeps same => exact absurd (same.trans clean) left
    | asks before after =>
      rw [← waits_pos, after]
      exact Nat.one_pos
    | skips gone before after => exact absurd after left
    | begins starts before after => exact absurd (clean.symm.trans before) Standing.clean_ne_waiting
    | ends before after => exact absurd after left
  rw [← mem_renders_iff] at absent waits
  cases reached.queued next .renders with
  | keeps same =>
    rw [queueAt_congr same] at waits
    exact absurd waits absent
  | @pushes a pushes =>
    rw [pushes.pushed (q := .renders) rfl] at waits
    rcases List.mem_append.mp waits with waits | last
    · exact absurd waits absent
    · exact List.mem_singleton.mp last ▸ pushes
  | hands hands =>
    have order := RunQueue.perm_of_pick (hands.handed reached.known)
    exact absurd (order.mem_iff.mpr (List.mem_cons_of_mem _ waits)) absent

theorem Pushes.asks (pushes : Pushes .renders (.element i) w w') :
    Asks i w w' ∧ w.isDirty i = false := by
  generalize renders : QueueId.renders = q at pushes
  generalize element : Item.element i = a at pushes
  cases pushes with
  | render asks clean =>
    cases element
    exact ⟨asks, clean⟩
  | effects kind top step =>
    cases kind with
    | _ => cases renders
  | job top found step => cases renders

/-! ## Turns -/

theorem not_startsPass_of_plain {new rest : List (Activity H)} (left : w'.stack = new ++ rest)
    (plain : ∀ a ∈ new, a.isPlain = true) (shorter : rest.length ≤ w.stack.length) :
    ¬ StartsPass i w w' := by
  rintro ⟨x, found, starts⟩
  rw [left] at starts
  cases new with
  | nil =>
    have lengths := congrArg List.length starts
    simp only [List.nil_append, List.length_cons] at lengths
    omega
  | cons a new =>
    obtain ⟨rfl, -⟩ := List.cons.inj starts
    cases (List.forall_mem_cons.mp plain).1

theorem not_startsPass_of_job {job : Job H} {rest : List (Activity H)}
    (left : w'.stack = job.activity :: rest) : ¬ StartsPass i w w' := by
  rintro ⟨x, found, starts⟩
  rw [left] at starts
  have isPass := congrArg (Activity.isPass i) (List.cons.inj starts).1
  rw [job.isPass_activity] at isPass
  simp [Activity.isPass] at isPass

/-- What starts a pass is a flush that hands the element over, which is connected. -/
theorem hands_of_startsPass (known : w.Known) (step : w.step? = some w')
    (starts : StartsPass i w w') :
    Hands .renders (.element i) w w' ∧ w.isConnected i = true := by
  cases stacked_of_stepped (stepped known step) with
  | plain left plain older =>
    exact absurd starts (not_startsPass_of_plain left plain older.length_le)
  | microtask top first left => exact absurd starts (not_startsPass_of_job left)
  | task top first left => exact absurd starts (not_startsPass_of_job left)
  | @pass j x renders stack top pick found here left =>
    obtain ⟨y, there, started⟩ := starts
    rw [started] at left
    obtain ⟨rfl, -⟩ := Activity.render.inj (List.cons.inj left).1
    exact ⟨⟨top, rfl, RunQueue.pick_map_some Item.element pick, step⟩,
      by simp [isConnected, found, here]⟩
  | resumes top left plain =>
    have lengths := congrArg List.length top
    exact absurd starts (not_startsPass_of_plain left plain (Nat.le_of_eq lengths.symm))

theorem Hands.startsPass (hands : Hands .renders (.element i) w w') (known : w.Known)
    (here : w.isConnected i = true) : StartsPass i w w' := by
  obtain @⟨stack, queue, queue', top, found, pick, step⟩ := hands
  obtain rfl := Option.some.inj found
  rw [RunQueue.pick_map] at pick
  obtain ⟨⟨j, renders⟩, picked, eq⟩ := Option.map_eq_some_iff.mp pick
  cases eq
  have waits : j ∈ w.renders.items := (RunQueue.perm_of_pick picked).mem_iff.mpr List.mem_cons_self
  obtain ⟨x, there⟩ := known j (.inl waits)
  have connected : x.connected = true := by simpa [isConnected, there] using here
  simp only [step?, top, stepFlush, picked, there, if_pos connected, Option.some.injEq] at step
  subst step
  exact ⟨x, there, by rw [top]; rfl⟩

/-- A pass of an element starts when the element has its turn and is connected. -/
theorem Reachable.startsPass_iff (reached : Reachable w) (next : Next w w') :
    StartsPass i w w' ↔ Hands .renders (.element i) w w' ∧ w.isConnected i = true := by
  refine ⟨fun starts => ?_, fun ⟨hands, here⟩ => hands.startsPass reached.known here⟩
  cases next with
  | step step => exact hands_of_startsPass reached.known step starts
  | create e =>
    obtain ⟨x, found, left⟩ := starts
    exact absurd (congrArg List.length left) (Nat.ne_of_lt (Nat.lt_succ_self _))
  | drop j =>
    obtain ⟨x, found, left⟩ := starts
    exact absurd (congrArg List.length left) (Nat.ne_of_lt (Nat.lt_succ_self _))
  | call p rest =>
    obtain ⟨x, found, left⟩ := starts
    cases (List.cons.inj left).1

/-! ## Flushes of renders -/

variable {ws : Nat → World H} {n b e k m : Nat} {below : List (Activity H)}

/-- The moves before `b` are made without a flush of renders, from when nothing waited for one; from
`b` to `e` there is one, which stands on `below`. No element asks for a render after its turn, as
when render functions write nothing. -/
structure Round (ws : Nat → World H) (n b e : Nat) (below : List (Activity H)) : Prop where
  run : Run ws n
  empty : (ws 0).renders.items = []
  before : ∀ k < b, .flush .renders ∉ (ws k).stack
  begins : (ws b).stack = .flush .renders :: below
  alone : .flush .renders ∉ below
  working : ∀ k, b ≤ k → k < e → .flush .renders :: below <:+ (ws k).stack
  lt : b < e
  within : e ≤ n
  ends : (ws e).stack = below
  quiet : ∀ i j k, j < k → k < e → Hands .renders (.element i) (ws j) (ws (j + 1)) →
    ¬ Pushes .renders (.element i) (ws k) (ws (k + 1))

/-- There are no turns without a flush. -/
theorem le_of_hands (before : ∀ k < b, .flush .renders ∉ (ws k).stack)
    (hands : Hands .renders (.element i) (ws k) (ws (k + 1))) : b ≤ k := by
  refine Nat.le_of_not_lt fun early => before k early ?_
  obtain ⟨top, found, pick, step⟩ := hands
  exact top ▸ List.mem_cons_self

/-- No element asks for a render after its turn when none does while the flush is at work. -/
theorem not_pushes_of_silent (before : ∀ k < b, .flush .renders ∉ (ws k).stack)
    (silent : ∀ k, b ≤ k → k < e → ∀ i, ¬ Asks i (ws k) (ws (k + 1))) {j : Nat} (lt : j < k)
    (within : k < e) (hands : Hands .renders (.element i) (ws j) (ws (j + 1))) :
    ¬ Pushes .renders (.element i) (ws k) (ws (k + 1)) := by
  intro pushes
  have late : b ≤ k := Nat.le_trans (le_of_hands before hands) (Nat.le_of_lt lt)
  exact silent k late within i pushes.asks.1

/-- At the move `m` a render of instance `i` is asked for, and it has not been before. -/
def FirstAsks (ws : Nat → World H) (i m : Nat) : Prop :=
  Asks i (ws m) (ws (m + 1)) ∧ ∀ l < m, ¬ Asks i (ws l) (ws (l + 1))

/-- A hook of a pass of instance `i` goes by what `x` holds. -/
inductive GoesBy (i : Nat) (x : Instance H) (w w' : World H) : Prop
  /-- The first value for it is not there, and is made before it is answered. -/
  | waits {h : Hook H} {next : h.Answer → Render H} {computed : Keyed Json} {cursor : Nat}
    {stack : List (Activity H)} {type : ValueType} {init : Program H}
    (top : w.stack = .render i (.hook h next) computed cursor .pass :: stack)
    (found : w.instances[i]? = some x) (pending : x.slots.pending? cursor h = some (type, init))
    (left : w'.stack = .program init (some (.first i cursor type)) :: w.stack)
  | answers {h : Hook H} {next : h.Answer → Render H} {computed : Keyed Json} {cursor : Nat}
    {stack : List (Activity H)}
    (top : w.stack = .render i (.hook h next) computed cursor .pass :: stack)
    (found : w.instances[i]? = some x) (ready : x.slots.pending? cursor h = none)
    (left : w'.stack = .render i (next ((w.rendering i x computed cursor).answer h).1) computed
      ((w.rendering i x computed cursor).answer h).2.cursor .pass :: stack)

/-- Until `e` each element that has asked for a render has had one turn, and those that were
connected then one pass, in the order in which they had asked first. -/
structure Coalesced (ws : Nat → World H) (b e : Nat) : Prop where
  turn : ∀ i, (∃ m < e, Asks i (ws m) (ws (m + 1))) ↔
    ∃ k, b ≤ k ∧ k < e ∧ Hands .renders (.element i) (ws k) (ws (k + 1))
  once : ∀ i j k, j < e → k < e → Hands .renders (.element i) (ws j) (ws (j + 1)) →
    Hands .renders (.element i) (ws k) (ws (k + 1)) → j = k
  order : ∀ i i' m m' k k', m < m' → m' < e → FirstAsks ws i m → FirstAsks ws i' m' →
    k < e → k' < e → Hands .renders (.element i) (ws k) (ws (k + 1)) →
    Hands .renders (.element i') (ws k') (ws (k' + 1)) → k < k'
  passes : ∀ i, ∀ k < e, StartsPass i (ws k) (ws (k + 1)) ↔
    Hands .renders (.element i) (ws k) (ws (k + 1)) ∧ (ws k).isConnected i = true
  /-- Whenever a pass looks at something, it sees what has been written last. -/
  reads : ∀ i, ∀ k < e, ∀ h next computed cursor stack,
    (ws k).stack = .render i (.hook h next) computed cursor .pass :: stack →
    (ws k).step? = some (ws (k + 1)) → ∃ x, GoesBy i x (ws k) (ws (k + 1)) ∧
      ∀ write, IsLatest ws i write k → x.contents.Holds write
  clean : ∀ i, (ws e).isDirty i = false

/-- A flush of renders that is over has left nothing. -/
theorem renders_of_flush_ends (known : w.Known) (top : w.stack = .flush .renders :: below)
    (step : w.step? = some w') (ends : w'.stack = below) : w'.renders.items = [] := by
  cases pick : w.renders.pick with
  | none =>
    simp only [step?, top, stepFlush, pick, Option.some.injEq] at step
    subst step
    exact RunQueue.pick_eq_none_iff.mp pick
  | some picked =>
    -- something is handed over, and the flush goes on
    obtain ⟨i, renders⟩ := picked
    obtain ⟨x, there⟩ := known i (.inl ((RunQueue.perm_of_pick pick).mem_iff.mpr
      List.mem_cons_self))
    have goes_on : .flush .renders :: below <:+ w'.stack := by
      simp only [step?, top, stepFlush, pick, there, Option.some.injEq] at step
      subst step
      split
      · exact List.suffix_cons _ _
      · exact List.suffix_refl _
    rw [ends] at goes_on
    exact absurd goes_on.length_le (Nat.not_le_of_lt (Nat.lt_succ_self _))

section Round

variable (round : Round ws n b e below)

include round

theorem Round.history : RunQueue.History (fun k => (ws k).queueAt .renders) n := by
  refine round.run.history (q := .renders) rfl ?_
  show (ws 0).renders.items.map Item.element = []
  rw [round.empty]
  rfl

theorem Round.handed (lt : k < e) {a : Item H} (hands : Hands .renders a (ws k) (ws (k + 1))) :
    RunQueue.Handed a ((ws k).queueAt .renders) ((ws (k + 1)).queueAt .renders) :=
  hands.handed (round.run.reachable (Nat.le_trans (Nat.le_of_lt lt) round.within)).known

/-- No element is put into the queue twice. -/
theorem Round.pushes_once (lt : m < k) (before : k < e)
    (pushes : Pushes .renders (.element i) (ws m) (ws (m + 1))) :
    ¬ Pushes .renders (.element i) (ws k) (ws (k + 1)) := by
  intro again
  have within : k ≤ n := Nat.le_trans (Nat.le_of_lt before) round.within
  have pushed := pushes.pushed (q := .renders) rfl
  rcases round.history.mem_slips_or_handed within lt pushed with waits | ⟨j, -, earlier, -, handed⟩
  · have mem := round.history.mem_items within waits pushed
    have dirty := (round.run.reachable within).isDirty_of_waits (mem_renders_iff.mp mem)
    rw [again.asks.2] at dirty
    cases dirty
  · have hands := round.run.hands_of_handed (q := .renders) rfl (Nat.lt_of_lt_of_le earlier within)
      handed
    exact round.quiet i j k earlier before hands again

theorem Round.pushes_unique {l : Nat} (first : m < e) (second : l < e)
    (pushes : Pushes .renders (.element i) (ws m) (ws (m + 1)))
    (again : Pushes .renders (.element i) (ws l) (ws (l + 1))) : m = l := by
  rcases Nat.lt_trichotomy m l with lt | same | lt
  · exact absurd again (round.pushes_once lt second pushes)
  · exact same
  · exact absurd pushes (round.pushes_once lt first again)

/-- When nothing has been asked for, all elements are clean. -/
theorem Round.clean_start (i : Nat) : (ws 0).standing i = .clean := by
  refine round.run.start.clean_of_no_flush round.empty ?_ i
  rcases Nat.eq_zero_or_pos b with rfl | pos
  · rw [round.begins]
    exact round.alone
  · exact fun flush => round.before 0 pos (List.mem_of_mem_tail flush)

/-- An element that is not clean has asked for a render. -/
theorem Round.exists_pushes (le : m ≤ n) (dirty : (ws m).standing i ≠ .clean) :
    ∃ l < m, Pushes .renders (.element i) (ws l) (ws (l + 1)) := by
  induction m with
  | zero => exact absurd (round.clean_start i) dirty
  | succ m ih =>
    have within := Nat.le_of_succ_le le
    by_cases clean : (ws m).standing i = .clean
    · exact ⟨m, Nat.lt_succ_self m,
        (round.run.reachable within).pushes_of_clean (round.run.next m le) clean dirty⟩
    · obtain ⟨l, lt, pushes⟩ := ih within clean
      exact ⟨l, Nat.lt_succ_of_lt lt, pushes⟩

/-- An element that asks for a render is put into the queue, unless it has asked before. -/
theorem Round.exists_pushes_of_asks (lt : m < e) (asks : Asks i (ws m) (ws (m + 1))) :
    ∃ l ≤ m, Pushes .renders (.element i) (ws l) (ws (l + 1)) := by
  cases dirty : (ws m).isDirty i with
  | false => exact ⟨m, Nat.le_refl m, .render asks dirty⟩
  | true =>
    have within : m ≤ n := Nat.le_trans (Nat.le_of_lt lt) round.within
    have stands : (ws m).standing i ≠ .clean := by
      intro clean
      have isDirty := congrArg Standing.dirty clean
      cases dirty.symm.trans isDirty
    obtain ⟨l, earlier, pushes⟩ := round.exists_pushes within stands
    exact ⟨l, Nat.le_of_lt earlier, pushes⟩

/-- The first request of an element puts it into the queue. -/
theorem Round.pushes_of_firstAsks (lt : m < e) (first : FirstAsks ws i m) :
    Pushes .renders (.element i) (ws m) (ws (m + 1)) := by
  obtain ⟨asks, none_before⟩ := first
  obtain ⟨l, le, pushes⟩ := round.exists_pushes_of_asks lt asks
  rcases Nat.eq_or_lt_of_le le with rfl | earlier
  · exact pushes
  · exact absurd pushes.asks.1 (none_before l earlier)

/-! ### The end of the flush -/

/-- The flush ends when nothing waits any more. -/
theorem Round.empty_at_end : (ws e).renders.items = [] := by
  obtain ⟨k, rfl⟩ := Nat.exists_eq_succ_of_ne_zero (Nat.ne_zero_of_lt round.lt)
  have within : k < n := round.within
  have reached := round.run.reachable (Nat.le_of_lt within)
  have standing := round.working k (Nat.le_of_lt_succ round.lt) (Nat.lt_succ_self k)
  have next := round.run.next k within
  have ends := round.ends
  have top : (ws k).stack = .flush .renders :: below := by
    refine Classical.byContradiction fun other => ?_
    have suffix := Above.next ⟨standing, Ne.symm other⟩ next
    rw [ends] at suffix
    exact absurd suffix.length_le (Nat.not_le_of_lt (Nat.lt_succ_self _))
  rcases next.step_or_keeps (top ▸ List.cons_ne_nil _ _) with step | ⟨same, -⟩
  · exact renders_of_flush_ends reached.known top step ends
  · have lengths := congrArg List.length ((ends.symm.trans same).trans top)
    exact absurd lengths (Nat.ne_of_lt (Nat.lt_succ_self _))

theorem Round.clean_at_end (i : Nat) : (ws e).standing i = .clean := by
  refine (round.run.reachable round.within).clean_of_no_flush round.empty_at_end ?_ i
  rw [round.ends]
  exact fun flush => round.alone (List.mem_of_mem_tail flush)

/-- What has been put into the queue has its turn before the flush ends. -/
theorem Round.exists_turn (lt : m < e) (pushes : Pushes .renders (.element i) (ws m) (ws (m + 1))) :
    ∃ k < e, Hands .renders (.element i) (ws k) (ws (k + 1)) ∧ origin ws .renders k = m := by
  have slips := round.history.forall₂_slips round.within
  have none_left : ((ws e).queueAt .renders).items = [] := by
    show (ws e).renders.items.map Item.element = []
    rw [round.empty_at_end]
    rfl
  rw [none_left, List.forall₂_nil_right_iff] at slips
  rcases round.history.mem_slips_or_handed round.within lt (pushes.pushed (q := .renders) rfl) with
    waits | ⟨k, -, before, origin, handed⟩
  · rw [slips] at waits
    cases waits
  · exact ⟨k, before, round.run.hands_of_handed (q := .renders) rfl
      (Nat.lt_of_lt_of_le before round.within) handed, origin⟩

/-- What has its turn has been put into the queue. -/
theorem Round.pushes_origin (lt : k < e)
    (hands : Hands .renders (.element i) (ws k) (ws (k + 1))) :
    origin ws .renders k < k ∧
      Pushes .renders (.element i) (ws (origin ws .renders k)) (ws (origin ws .renders k + 1)) := by
  have within := Nat.lt_of_lt_of_le lt round.within
  obtain ⟨-, earlier, pushed⟩ := round.history.slips_eq_join within (round.handed lt hands)
  exact ⟨earlier,
    round.run.pushes_of_pushed (q := .renders) rfl (Nat.lt_trans earlier within) pushed⟩

/-- Each turn goes back to the first request. -/
theorem Round.origin_eq (lt : k < e) (before : m < e) (first : FirstAsks ws i m)
    (hands : Hands .renders (.element i) (ws k) (ws (k + 1))) : origin ws .renders k = m := by
  obtain ⟨earlier, pushes⟩ := round.pushes_origin lt hands
  exact round.pushes_unique (Nat.lt_trans earlier lt) before pushes
    (round.pushes_of_firstAsks before first)

/-- Elements that have asked have one turn each, in the order in which they have asked first; those
that are connected then are rendered once, by what has been written last, and all are clean in the
end. -/
theorem Round.coalesced : Coalesced ws b e where
  turn i := by
    refine ⟨fun ⟨m, lt, asks⟩ => ?_, fun ⟨k, after, lt, hands⟩ => ?_⟩
    · obtain ⟨l, le, pushes⟩ := round.exists_pushes_of_asks lt asks
      obtain ⟨k, before, hands, -⟩ := round.exists_turn (Nat.lt_of_le_of_lt le lt) pushes
      exact ⟨k, le_of_hands round.before hands, before, hands⟩
    · obtain ⟨earlier, pushes⟩ := round.pushes_origin lt hands
      exact ⟨_, Nat.lt_trans earlier lt, pushes.asks.1⟩
  once i j k before lt first second := by
    obtain ⟨earlier, pushes⟩ := round.pushes_origin before first
    obtain ⟨earlier', pushes'⟩ := round.pushes_origin lt second
    have same := round.pushes_unique (Nat.lt_trans earlier before) (Nat.lt_trans earlier' lt)
      pushes pushes'
    exact round.history.origin_injective (Nat.lt_of_lt_of_le before round.within)
      (Nat.lt_of_lt_of_le lt round.within) (round.handed before first) (round.handed lt second) same
  order i i' m m' k k' lt before first first' within within' hands hands' := by
    have origin_k := round.origin_eq within (Nat.lt_trans lt before) first hands
    have origin_k' := round.origin_eq within' before first' hands'
    rcases Nat.lt_trichotomy k k' with sooner | rfl | later
    · exact sooner
    · exact absurd (origin_k.symm.trans origin_k') (Nat.ne_of_lt lt)
    · have policy := round.run.start.renders_policy
      have order := round.history.origin_lt_origin policy later
        (Nat.lt_of_lt_of_le within round.within) (round.handed within' hands')
        (round.handed within hands)
      have reversed : m' < m := origin_k' ▸ origin_k ▸ order
      exact absurd reversed (Nat.lt_asymm lt)
  passes i k lt :=
    have within := Nat.lt_of_lt_of_le lt round.within
    (round.run.reachable (Nat.le_of_lt within)).startsPass_iff (round.run.next k within)
  reads i k lt h next computed cursor stack top step := by
    have within : k ≤ n := Nat.le_trans (Nat.le_of_lt lt) round.within
    obtain ⟨x, found⟩ := (round.run.reachable within).known i (.inr (by simp [inPass, top,
      Activity.isPass]))
    refine ⟨x, ?_, fun write latest => ?_⟩
    · cases pending : x.slots.pending? cursor h with
      | some first => exact .waits top found pending (stack_pending top found pending step)
      | none => exact .answers top found pending (stack_hook top found pending step)
    · obtain ⟨c, there, holds⟩ := round.run.holds_of_isLatest within latest
      rw [contents_of_found found, Option.some.injEq] at there
      exact there ▸ holds
  clean i := congrArg Standing.dirty (round.clean_at_end i)

end Round

/-- Two counters are connected, the second one first, and the first one is written to twice. -/
def gathered : World Unit :=
  hosting counter
    (.request 1 .connect (.request 0 .connect (.request 0 (.setState "n".toList (.int 1))
      (.request 0 (.setState "n".toList (.int 2)) (.drive .microtasks fun _ => .skip)))))

/-- The next step may ask for a render. -/
def isAsking (w : World H) : Bool :=
  match w.stack with
  | .program (.request ..) _ :: _ | .program (.setField ..) _ :: _
  | .program (.give _) (some (.change ..)) :: _ | .render _ (.hook (.setState ..) _) .. :: _ => true
  | _ => false

theorem Asks.isAsking (asks : Asks i w w') : w.isAsking = true := by
  cases asks with
  | request top held asks step => rw [World.isAsking, top]
  | setField top alive step => rw [World.isAsking, top]
  | change top found differs step => rw [World.isAsking, top]
  | hook top found step => rw [World.isAsking, top]

theorem busy_gathered : ∀ k < 13, (gathered.run k).stack ≠ [] := by decide

theorem no_flush_gathered (k : Nat) (lt : k < 6) : .flush .renders ∉ (gathered.run k).stack := by
  intro flush
  have no_flush : ∀ k < 6, (gathered.run k).stack.any Activity.isFlush = false := by decide
  exact List.any_eq_false.mp (no_flush k lt) _ flush rfl

theorem round_gathered : Round (gathered.run ·) 13 6 13 (gathered.run 6).stack.tail where
  run := (reachable_hosting _ _).runOn busy_gathered
  empty := rfl
  before := no_flush_gathered
  begins := rfl
  alone flush := by
    have no_flush : (gathered.run 6).stack.tail.any Activity.isFlush = false := by decide
    exact List.any_eq_false.mp no_flush _ flush rfl
  working k after before := by
    have cases : k = 6 ∨ k = 7 ∨ k = 8 ∨ k = 9 ∨ k = 10 ∨ k = 11 ∨ k = 12 := by omega
    rcases cases with rfl | rfl | rfl | rfl | rfl | rfl | rfl
    · exact ⟨[], rfl⟩
    · exact ⟨(gathered.run 7).stack.take 1, rfl⟩
    · exact ⟨(gathered.run 8).stack.take 1, rfl⟩
    · exact ⟨[], rfl⟩
    · exact ⟨(gathered.run 10).stack.take 1, rfl⟩
    · exact ⟨(gathered.run 11).stack.take 1, rfl⟩
    · exact ⟨[], rfl⟩
  lt := by decide
  within := by decide
  ends := rfl
  quiet i j k lt before hands := by
    have still : ∀ k < 13, 6 ≤ k → (gathered.run k).isAsking = false := by decide
    refine not_pushes_of_silent no_flush_gathered (fun k after before i asks => ?_) lt before hands
    have asking := asks.isAsking
    rw [still k before after] at asking
    cases asking

theorem coalesced_gathered :
    ∃ k < 13, StartsPass 0 (gathered.run k) (gathered.run (k + 1)) := by
  have coalesced := round_gathered.coalesced
  have asks : Asks 0 (gathered.run 1) (gathered.run 2) :=
    .request rfl rfl rfl (step?_run (busy_gathered 1 (by decide)))
  obtain ⟨k, after, before, hands⟩ := (coalesced.turn 0).mp ⟨1, by decide, asks⟩
  have connected : ∀ k < 13, 5 < k → (gathered.run k).isConnected 0 = true := by decide
  exact ⟨k, before, (coalesced.passes 0 k before).mpr ⟨hands, connected k before after⟩⟩

end World

end LiveMarkup
