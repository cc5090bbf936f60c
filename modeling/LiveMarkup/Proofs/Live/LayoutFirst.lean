import LiveMarkup.Proofs.Live.Drains
import LiveMarkup.Proofs.Live.Effects

/-!
# Layout effects come first

When a pass ends, its element waits for its layout effects and for its passive effects. The layout
effects are flushed before the drain ends in which the pass is made, whatever else is queued or at
work. When callbacks do not drive the event loop, the passive effects are flushed in a task that is
taken behind the end of that drain, and so after them.
-/

namespace LiveMarkup

variable {H : Type}

namespace RenderState

/-- A hook takes the next slot or none. -/
theorem le_cursor_answer (s : RenderState H) (h : Hook H) : s.cursor ≤ (s.answer h).2.cursor := by
  have taken : s.cursor ≤ s.cursor + 1 := Nat.le_succ _
  cases h with
  | useState init => exact taken
  | useInt init => exact taken
  | useCell init => exact taken
  | useMemo deps compute =>
    simp only [answer]
    split
    · exact taken
    · exact taken
  | useCallback deps body =>
    simp only [answer]
    split
    · exact taken
    · exact taken
  | useEffect kind deps effect =>
    cases deps with
    | none => exact taken
    | some deps =>
      simp only [answer]
      split
      · exact taken
      · exact taken
  | _ => exact Nat.le_refl _

/-- A hook that puts an effect into its slot takes the slot. -/
theorem lt_cursor_answer {s : RenderState H} {h : Hook H} {queued : EffectKind × Program H}
    (queues : s.queues? h = some queued) : s.cursor < (s.answer h).2.cursor := by
  have taken : s.cursor < s.cursor + 1 := Nat.lt_succ_self _
  cases h with
  | useEffect kind deps effect =>
    cases deps with
    | none => exact taken
    | some deps =>
      simp only [answer]
      split
      · exact taken
      · exact taken
  | _ => cases queues

end RenderState

namespace World

variable {w w' : World H} {i cursor a k n p h d s slot : Nat} {rest : Render H}
  {computed : Keyed Json} {below : List (Activity H)} {result : TemplateResult}
  {effect : Program H} {ws : Nat → World H}

/-! ## Passes -/

theorem stack_finish (top : w.stack = .render i (.finish result) computed cursor .pass :: below)
    (step : w.step? = some w') : w'.stack = below := by
  simp only [step?, top, stepRender, finishRender, Option.some.injEq] at step
  subst step
  rw [(kept_pushEffects _ _).stack]
  split
  · rfl
  · split
    · rfl
    · rfl

/-- A step of a pass goes on at the same slot or a later one, or ends it. -/
theorem step_pass (known : w.Known)
    (top : w.stack = .render i rest computed cursor .pass :: below) (step : w.step? = some w') :
    (∃ rest' cursor', cursor ≤ cursor' ∧
        .render i rest' computed cursor' .pass :: below <:+ w'.stack) ∨
      ∃ result, rest = .finish result := by
  have goes_on (above : List (Activity H)) (rest' : Render H)
      (left : w'.stack = above ++ .render i rest' computed cursor .pass :: below) :
      ∃ rest' cursor', cursor ≤ cursor' ∧
        .render i rest' computed cursor' .pass :: below <:+ w'.stack :=
    ⟨rest', cursor, Nat.le_refl _, left ▸ List.suffix_append _ _⟩
  have stepped := step
  simp only [step?, top, Option.some.injEq] at stepped
  cases rest with
  | finish result => exact .inr ⟨result, rfl⟩
  | peek next => exact .inl (goes_on [] (next w.host) (congrArg World.stack stepped.symm))
  | poke change next => exact .inl (goes_on [] next (congrArg World.stack stepped.symm))
  | perform p next =>
    exact .inl (goes_on [.program p none] next (congrArg World.stack stepped.symm))
  | hook h next =>
    obtain ⟨x, found⟩ := known i (.inr (by simp [inPass, top, Activity.isPass]))
    cases pending : x.slots.pending? cursor h with
    | some first =>
      have left := stack_pending top found pending step
      exact .inl (goes_on [_] (.hook h next) (top ▸ left))
    | none =>
      exact .inl ⟨_, _, (w.rendering i x computed cursor).le_cursor_answer h,
        suffix_of_eq (stack_hook top found pending step)⟩

/-- A pass goes on behind a move, or comes to its end. -/
theorem pass_next (known : w.Known)
    (stands : .render i rest computed cursor .pass :: below <:+ w.stack) (move : Next w w') :
    (∃ rest' cursor', cursor ≤ cursor' ∧
        .render i rest' computed cursor' .pass :: below <:+ w'.stack) ∨
      ∃ result, w.stack = .render i (.finish result) computed cursor .pass :: below ∧
        w.step? = some w' := by
  by_cases top : .render i rest computed cursor .pass :: below = w.stack
  · rcases move.step_or_keeps (top ▸ List.cons_ne_nil _ _) with step | ⟨still, -⟩
    · rcases step_pass known top.symm step with goes_on | ⟨result, rfl⟩
      · exact .inl goes_on
      · exact .inr ⟨result, top.symm, step⟩
    · exact .inl ⟨rest, cursor, Nat.le_refl _, still ▸ stands⟩
  · exact .inl ⟨rest, cursor, Nat.le_refl _, Above.next ⟨stands, top⟩ move⟩

/-- A pass goes on, or has come to its end. -/
theorem Run.pass_or_ends (run : Run ws n) (le : a ≤ k) (within : k ≤ n)
    (stands : .render i rest computed cursor .pass :: below <:+ (ws a).stack) :
    (∃ rest' cursor', cursor ≤ cursor' ∧
        .render i rest' computed cursor' .pass :: below <:+ (ws k).stack) ∨
      ∃ f, a ≤ f ∧ f < k ∧ (ws f).step? = some (ws (f + 1)) ∧ ∃ result cursor',
        (ws f).stack = .render i (.finish result) computed cursor' .pass :: below := by
  induction le with
  | refl => exact .inl ⟨rest, cursor, Nat.le_refl _, stands⟩
  | @step k le ih =>
    have before := Nat.le_of_succ_le within
    rcases ih before with ⟨rest', cursor', further, standing⟩ | ⟨f, after, earlier, ends⟩
    · have known := (run.reachable before).known
      rcases pass_next known standing (run.next k within) with
        ⟨rest', cursor'', further', standing⟩ | ⟨result, top, step⟩
      · exact .inl ⟨rest', cursor'', Nat.le_trans further further', standing⟩
      · exact .inr ⟨k, le, Nat.lt_succ_self k, step, result, cursor', top⟩
    · exact .inr ⟨f, after, Nat.lt_succ_of_lt earlier, ends⟩

/-- The pass that the move `p` has started is at work at `k`, and nothing that it calls. -/
structure IsAtPass (ws : Nat → World H) (p k : Nat) : Prop where
  after : p < k
  inside : ∀ l, p < l → l ≤ k → Above (ws p).stack (ws l)
  top : (ws k).stack.tail = (ws p).stack

/-- A pass does not go back to slots that it has taken. -/
theorem IsAtPass.exists_stack (at_k : IsAtPass ws p k) (run : Run ws n) (later : p < a)
    (le : a ≤ k) (within : k ≤ n)
    (stands : .render i rest computed cursor .pass :: (ws p).stack <:+ (ws a).stack) :
    ∃ rest' cursor', cursor ≤ cursor' ∧
      (ws k).stack = .render i rest' computed cursor' .pass :: (ws p).stack := by
  rcases run.pass_or_ends le within stands with
    ⟨rest', cursor', further, standing⟩ | ⟨f, after, before, step, result, cursor', top⟩
  · have length : (ws k).stack.length = (ws p).stack.length + 1 := by
      have longer := (at_k.inside k at_k.after (Nat.le_refl k)).length_lt
      have tail := congrArg List.length at_k.top
      rw [List.length_tail] at tail
      omega
    exact ⟨rest', cursor', further, (standing.eq_of_length length.symm).symm⟩
  · -- the pass would be over before `k`
    have inside := at_k.inside (f + 1) (Nat.lt_succ_of_lt (Nat.lt_of_lt_of_le later after)) before
    rw [Above, stack_finish top step] at inside
    exact absurd rfl inside.2

/-- The pass that the move `p` starts puts an effect into a slot by the move `h`. -/
structure QueuedBy (kind : EffectKind) (ws : Nat → World H) (i slot : Nat) (effect : Program H)
    (p h : Nat) : Prop where
  at_pass : IsAtPass ws p h
  queues : QueuesEffect kind i slot effect (ws h) (ws (h + 1))

/-- Behind the hook the pass is at a later slot. -/
theorem QueuedBy.exists_stands {kind : EffectKind} (queued : QueuedBy kind ws i slot effect p h)
    (run : Run ws n) (starts : StartsPass i (ws p) (ws (p + 1))) (within : h < n) :
    ∃ rest computed cursor, slot < cursor ∧
      (ws (h + 1)).stack = .render i rest computed cursor .pass :: (ws p).stack := by
  obtain ⟨x, found, started⟩ := starts
  obtain ⟨rest, cursor, -, stack⟩ := queued.at_pass.exists_stack run (Nat.lt_succ_self p)
    queued.at_pass.after (Nat.le_of_lt within) (suffix_of_eq started)
  obtain ⟨top, there, queues, step⟩ := queued.queues
  have left := stack_hook top there (RenderState.pending?_of_queues queues) step
  rw [top] at stack
  obtain ⟨same, below⟩ := List.cons.inj stack
  cases same
  subst below
  exact ⟨_, _, _, RenderState.lt_cursor_answer queues, left⟩

/-! ## Layout effects -/

/-- By `d` the layout effect that a pass has put into its slot by the move `h` has been run, or is
not to be run any more. -/
inductive LayoutDone (ws : Nat → World H) (i slot : Nat) (effect : Program H) (p h d : Nat) : Prop
  /-- Another render has put another effect into the slot before it was taken. -/
  | replaced {g : Nat} {other : Program H} (after : h < g) (before : g < d)
    (waits : ∀ l, h < l → l ≤ g → (ws l).effect? .layout i slot = some effect)
    (another : ¬ IsAtPass ws p g) (queues : QueuesEffect .layout i slot other (ws g) (ws (g + 1)))
  /-- A flush has taken it, and it has been run. -/
  | ran {g b e : Nat} {taken : List (Nat × Program H)} (after : h < g) (later : g < b)
    (before : e ≤ d) (waits : ∀ l, h < l → l ≤ g → (ws l).effect? .layout i slot = some effect)
    (takes : TakesEffects .layout i taken (ws g) (ws (g + 1))) (mem : (slot, effect) ∈ taken)
    (runs : RunsEffect ws i slot effect (ws g).stack b e)

section HostRun

variable (host : HostRun ws n)

include host

/-- A pass is made in a drain, and nothing else is being done. -/
theorem HostRun.pass_stack (lt : p < n) (starts : StartsPass i (ws p) (ws (p + 1))) :
    ∃ ran next, (ws p).stack = [.flush .renders, .checkpoint ran next none] := by
  obtain ⟨x, found, started⟩ := starts
  have isPass : (Activity.render i x.element.render (x.element.computed x.state) 0
      .pass).isPass i = true := beq_self_eq_true i
  exact (host.driven (p + 1) lt).pass_below (host.run.reachable lt) isPass
    (suffix_of_eq started)

/-- A pass that has put an effect into a slot ends before the drain does in which it is made. -/
theorem HostRun.exists_finish (lt : p < n) (starts : StartsPass i (ws p) (ws (p + 1)))
    (drain : DrainOf ws p d) (within : d ≤ n) {kind : EffectKind}
    (queued : QueuedBy kind ws i slot effect p h) :
    h < d ∧ (∃ rest computed cursor, slot < cursor ∧
        (ws (h + 1)).stack = .render i rest computed cursor .pass :: (ws p).stack) ∧
      ∃ f, h < f ∧ f < d ∧ (ws f).step? = some (ws (f + 1)) ∧ ∃ result computed cursor,
        (ws f).stack = .render i (.finish result) computed cursor .pass :: (ws p).stack := by
  obtain ⟨ran, next, seat⟩ := host.pass_stack lt starts
  obtain ⟨ran', next', keep, bottom⟩ := drain.ends.stack_eq (host.driven d within)
  have two : (ws p).stack.length = 2 := congrArg List.length seat
  have one : (ws d).stack.length = 1 := congrArg List.length bottom
  have h_lt : h < d := by
    refine Nat.lt_of_not_le fun early => ?_
    rcases Nat.eq_or_lt_of_le drain.le with rfl | after
    · omega
    · have longer := (queued.at_pass.inside d after early).length_lt
      omega
  obtain ⟨rest, computed, cursor, further, stack⟩ :=
    queued.exists_stands host.run starts (Nat.lt_of_lt_of_le h_lt within)
  refine ⟨h_lt, ⟨rest, computed, cursor, further, stack⟩, ?_⟩
  rcases host.run.pass_or_ends h_lt within (suffix_of_eq stack) with
    ⟨rest', cursor', -, standing⟩ | ⟨f, after, before, step, result, cursor', top⟩
  · have shorter := standing.length_le
    rw [List.length_cons] at shorter
    omega
  · exact ⟨f, after, before, step, result, computed, cursor', top⟩

/-- The element of a pass that ends is handed over for its layout effects before the drain ends. -/
theorem HostRun.exists_hands_layout {f : Nat} (drain : DrainOf ws p d) (within : d ≤ n)
    (before : f < d) (step : (ws f).step? = some (ws (f + 1)))
    (top : (ws f).stack = .render i (.finish result) computed cursor .pass :: below) :
    ∃ g, f < g ∧ g < d ∧ Hands .layout (.element i) (ws g) (ws (g + 1)) := by
  have pushes : Pushes .layout (.element i) (ws f) (ws (f + 1)) := .effects .layout top step
  have waits : .element i ∈ ((ws (f + 1)).queueAt .layout).items := by
    rw [pushes.pushed (q := .layout) rfl]
    exact List.mem_append_right _ List.mem_cons_self
  have none_left : ((ws d).queueAt .layout).items = [] :=
    congrArg (List.map Item.element)
      (drain.ends.layout_eq_nil (host.driven d within) (host.run.reachable within))
  exact host.run.exists_hands before within waits (none_left ▸ List.not_mem_nil)

/-- Layout effects that a flush takes are run before the drain ends. -/
theorem HostRun.exists_runsEffect {g : Nat} {taken : List (Nat × Program H)}
    (drain : DrainOf ws p d) (within : d ≤ n) (before : g < d)
    (takes : TakesEffects .layout i taken (ws g) (ws (g + 1))) (mem : (slot, effect) ∈ taken) :
    ∃ b e, g < b ∧ e ≤ d ∧ RunsEffect ws i slot effect (ws g).stack b e := by
  obtain ⟨hands, here, left⟩ := takes
  obtain ⟨ran, next, keep, bottom⟩ := drain.ends.stack_eq (host.driven d within)
  have shorter : (ws d).stack.length ≤ (ws g).stack.length := by
    obtain ⟨top, found, pick, step⟩ := hands
    rw [bottom, top, List.length_cons]
    exact Nat.le_add_left _ _
  obtain ⟨e, from_g, to_d, down, -⟩ := host.run.comes_down (ws g).stack before within
    (left ▸ List.suffix_cons _ _) shorter
  obtain ⟨b, f, after, f_le, runs⟩ :=
    host.run.runs_taken from_g (Nat.le_trans to_d within) left down _ mem
  exact ⟨b, f, Nat.lt_of_succ_lt after, Nat.le_trans f_le to_d, runs⟩

/-- When the drain of a pass ends, its layout effects have been run. -/
theorem HostRun.layoutDone (lt : p < n) (starts : StartsPass i (ws p) (ws (p + 1)))
    (drain : DrainOf ws p d) (within : d ≤ n)
    (connected : ∀ k, p < k → k < d → (ws k).isConnected i = true)
    (queued : QueuedBy .layout ws i slot effect p h) : LayoutDone ws i slot effect p h d := by
  have run := host.run
  obtain ⟨h_lt, ⟨rest, computed, cursor, further, stack⟩, f, after, before, step, result, computed',
    cursor', top⟩ := host.exists_finish lt starts drain within queued
  obtain ⟨g, from_f, to_d, hands⟩ := host.exists_hands_layout drain within before step top
  have from_h : h < g := Nat.lt_trans after from_f
  rcases run.waits_or_leaves h_lt within queued.queues.effect?_eq with
    still | ⟨l, from_l, l_lt, waits, ⟨other, queues⟩ | ⟨taken, takes, mem⟩⟩
  · -- it would still be there when the element has been handed over
    have here := connected g (Nat.lt_trans queued.at_pass.after from_h) to_d
    have now := still (g + 1) (Nat.le_succ_of_le from_h) to_d
    rw [hands.effect?_eq_none .layout here] at now
    cases now
  · refine .replaced from_l l_lt waits (fun at_l => ?_) queues
    -- the pass itself is at a later slot
    obtain ⟨rest', cursor', later, stack'⟩ := at_l.exists_stack run
      (Nat.lt_succ_of_lt queued.at_pass.after) from_l
      (Nat.le_trans (Nat.le_of_lt l_lt) within) (suffix_of_eq stack)
    obtain ⟨top, -, -, -⟩ := queues
    rw [top] at stack'
    cases (List.cons.inj stack').1
    omega
  · obtain ⟨b, e, later, e_le, runs⟩ :=
      host.exists_runsEffect drain within l_lt takes mem
    exact .ran from_l later e_le waits takes mem runs

/-! ## Passive effects -/

/-- Passive effects that start behind the start of a pass do so in a task that is taken behind the
end of its drain. -/
theorem HostRun.exists_task (lt : p < n) (starts : StartsPass i (ws p) (ws (p + 1)))
    (within : s ≤ n) (later : p < s) {j : Nat}
    (effect_starts : StartsEffect ws j slot effect (.flush .passive :: below) s) :
    ∃ d t, d < t ∧ t < s ∧ DrainOf ws p d ∧
      (∃ below, TakesTask (.flush .passive) below (ws t) (ws (t + 1))) ∧
      ∀ l, t < l → l ≤ s → .flush .passive ∈ (ws l).stack := by
  obtain ⟨ran, next, seat⟩ := host.pass_stack lt starts
  have before : .flush .passive ∉ (ws p).stack := by
    rw [seat]
    simp
  have after : .flush .passive ∈ (ws s).stack := by
    obtain ⟨-, -, -, stack⟩ := effect_starts
    rw [stack]
    simp
  obtain ⟨t, from_p, to_s, ⟨below, takes⟩, since⟩ :=
    host.run.exists_takesTask (Nat.le_of_lt later) within before after
  have on : (ws p).OnCheckpoint next none := ⟨[.flush .renders], ran, seat⟩
  obtain ⟨d, earlier, drain⟩ :=
    host.exists_drainOf from_p (Nat.lt_of_lt_of_le to_s within) on takes
  exact ⟨d, t, earlier, to_s, drain, ⟨below, takes⟩, since⟩

end HostRun

/-- What becomes of the effects of the pass of instance `i` that the move `p` starts, in the first
`n` moves of a run. -/
structure LayoutFirst (ws : Nat → World H) (n i p : Nat) : Prop where
  /-- Its layout effects have been run when the drain ends in which it is made, if the element stays
  connected until then. -/
  layout : ∀ d ≤ n, DrainOf ws p d → (∀ k, p < k → k < d → (ws k).isConnected i = true) →
    ∀ slot effect h, QueuedBy .layout ws i slot effect p h → LayoutDone ws i slot effect p h d
  /-- No passive effect starts before that; and then in a task that is taken later. -/
  passive : ∀ s ≤ n, p < s → ∀ j slot effect below,
    StartsEffect ws j slot effect (.flush .passive :: below) s →
      ∃ d t, d < t ∧ t < s ∧ DrainOf ws p d ∧
        (∃ below, TakesTask (.flush .passive) below (ws t) (ws (t + 1))) ∧
        ∀ l, t < l → l ≤ s → .flush .passive ∈ (ws l).stack

/-- When callbacks do not drive the event loop, the layout effects of each pass come before all
passive effects that start behind it. And whenever the loop is run until it is idle, each task
starts without microtasks. -/
theorem Run.layoutFirst (run : Run ws n) :
    (HostRun ws n → ∀ i, ∀ p < n, StartsPass i (ws p) (ws (p + 1)) → LayoutFirst ws n i p) ∧
      ∀ next keep below a, (ws a).stack = .program (.drive .untilIdle next) keep :: below →
        ∀ k, a ≤ k → k < n →
          (∀ l, a < l → l ≤ k → (ws l).stack ≠ .program (next 0) keep :: below) →
          ∀ job, TakesTask job below (ws k) (ws (k + 1)) → (ws k).microtasks = [] := by
  refine ⟨fun host i p lt starts => ⟨?_, ?_⟩, ?_⟩
  · intro d within drain connected slot effect h queued
    exact host.layoutDone lt starts drain within connected queued
  · intro s within later j slot effect below effect_starts
    exact host.exists_task lt starts within later effect_starts
  · intro next keep below a top k le lt going job takes
    have untilIdle := run.untilIdle le (Nat.le_of_lt lt) top going
    exact untilIdle.microtasks_eq_nil takes

/-- An element with a passive effect and a layout effect. -/
def paired : Element Unit where
  name := "x-paired".toList
  render := .hook (.useEffect .passive none .skip) fun _ =>
    .hook (.useEffect .layout none .skip) fun _ => .finish ⟨.ok (.static "paired".toList), []⟩

/-- The host connects such an element and runs the loop until it is idle. -/
def pairing : Nat → World Unit :=
  calling (housing paired) (.request 0 .connect (.drive .untilIdle fun _ => .skip))

theorem busy_pairing : ∀ k < 24, (pairing (k + 1)).stack ≠ [] := by decide

theorem hostRun_pairing : HostRun pairing 25 where
  run := (reachable_housing _).runCall rfl busy_pairing
  rest := rfl
  driven k le := by
    have driven : ∀ k < 26, (pairing k).HostDriven := by decide
    exact driven k (Nat.lt_succ_of_le le)

theorem queuedBy_pairing : QueuedBy .layout pairing 0 1 .skip 4 6 where
  at_pass := by
    refine ⟨by decide, fun l after before => ?_, rfl⟩
    have cases : l = 5 ∨ l = 6 := by omega
    rcases cases with rfl | rfl
    · exact above_append [] rfl
    · exact above_append [] rfl
  queues := ⟨rfl, rfl, rfl, step?_run (busy_pairing 5 (by decide))⟩

/-- The call that runs the loop is not over when its first task is taken. -/
theorem going_pairing (l : Nat) (after : 2 < l) (before : l ≤ 16) :
    (pairing l).stack ≠ [.program .skip none] := by
  intro ended
  rcases Nat.le_succ_iff.mp before with draining | rfl
  · have at_work : ∀ l < 16, 2 < l → (pairing l).stack.any Activity.isCheckpoint = true := by decide
    have checkpoint := at_work l (Nat.lt_succ_of_le draining) after
    rw [ended] at checkpoint
    cases checkpoint
  · have tasks : (pairing 16).stack = [.program (.drive .tasks fun _ => .skip) none] := rfl
    rw [tasks] at ended
    cases (Activity.program.inj (List.cons.inj ended).1).1

theorem layoutFirst_pairing :
    (∃ d t, d < t ∧ t < 19 ∧ DrainOf pairing 4 d ∧ LayoutDone pairing 0 1 .skip 4 6 d) ∧
      (pairing 16).microtasks = [] := by
  obtain ⟨first, alone⟩ := hostRun_pairing.run.layoutFirst
  refine ⟨?_, ?_⟩
  · have starts : StartsPass 0 (pairing 4) (pairing 5) := ⟨_, rfl, rfl⟩
    obtain ⟨layout, passive⟩ := first hostRun_pairing 0 4 (by decide) starts
    obtain ⟨below, turned, stack⟩ : ∃ below,
        (pairing 18).stack = .effects 0 [(0, .skip)] :: .flush .passive :: below ∧
        (pairing 19).stack =
          .program .skip (some (.cleanup ⟨0, 0⟩)) :: .effects 0 [] :: .flush .passive :: below :=
      ⟨_, rfl, rfl⟩
    have effect_starts : StartsEffect pairing 0 0 .skip (.flush .passive :: below) 19 :=
      ⟨Nat.lt_succ_self 18, turned, fun l after before => absurd before (Nat.not_lt_of_le after),
        stack⟩
    obtain ⟨d, t, earlier, before, drain, -, -⟩ :=
      passive 19 (by decide) (by decide) 0 0 .skip below effect_starts
    have connected : ∀ k < 26, 4 < k → (pairing k).isConnected 0 = true := by decide
    have within : d ≤ 25 := by omega
    exact ⟨d, t, earlier, before, drain, layout d within drain
      (fun k after until_d => connected k (by omega) after) 1 .skip 6 queuedBy_pairing⟩
  · have takes : TakesTask (.flush .passive) [] (pairing 16) (pairing 17) :=
      ⟨rfl, rfl, rfl, step?_run (busy_pairing 15 (by decide))⟩
    exact alone (fun _ => .skip) none [] 2 rfl 16 (by decide) (by decide) going_pairing _ takes

end World

end LiveMarkup
