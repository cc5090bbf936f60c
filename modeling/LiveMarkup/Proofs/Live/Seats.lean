import LiveMarkup.Proofs.Live.Detaching

/-!
# What activities stand on

A flush stands on the checkpoint that has started it, a pass on the flush of renders, and the
effects of an element on their flush. When callbacks do not drive the event loop themselves there is
one checkpoint at most, at the bottom of the stack. Then there is one flush at most, with one pass
or with the effects of one element over it, and no effect runs inside another one.
-/

namespace LiveMarkup

variable {H : Type}

/-! ## Stacks -/

namespace Activity

/-- Every activity of a stack has a seat below it of the kind `P`. -/
def Seated (P : Activity H → List (Activity H) → Prop) : List (Activity H) → Prop
  | [] => True
  | a :: stack => P a stack ∧ Seated P stack

/-- Flushes stand on checkpoints, and passes on the flush of renders. -/
structure LoopSeat (a : Activity H) (stack : List (Activity H)) : Prop where
  flush : a.isFlush = true → ∃ ran next keep below, stack = .checkpoint ran next keep :: below
  pass : ∀ i, a.isPass i = true → ∃ below, stack = .flush .renders :: below

/-- Effects stand on flushes. -/
def EffectsSeat (a : Activity H) (stack : List (Activity H)) : Prop :=
  a.isEffects = true → ∃ q below, stack = .flush q :: below

variable {P : Activity H → List (Activity H) → Prop} {a b : Activity H}
  {stack below : List (Activity H)}

theorem Seated.suffix (seated : Seated P stack) (suffix : below <:+ stack) : Seated P below := by
  induction stack with
  | nil => exact List.suffix_nil.mp suffix ▸ trivial
  | cons a stack ih =>
    rcases List.suffix_cons_iff.mp suffix with rfl | suffix
    · exact seated
    · exact ih seated.2 suffix

theorem Seated.append (seated : Seated P stack) {new : List (Activity H)}
    (free : ∀ a ∈ new, ∀ stack, P a stack) : Seated P (new ++ stack) := by
  induction new with
  | nil => exact seated
  | cons a new ih =>
    rw [List.forall_mem_cons] at free
    exact ⟨free.1 _, ih free.2⟩

theorem Footed.suffix {count : Nat} (footed : Footed count stack) (suffix : below <:+ stack) :
    Footed count below := by
  induction stack with
  | nil => exact List.suffix_nil.mp suffix ▸ trivial
  | cons a stack ih =>
    rcases List.suffix_cons_iff.mp suffix with rfl | suffix
    · exact footed
    · exact ih footed.2 suffix

theorem LoopSeat.of_plain (plain : a.isPlain = true) : LoopSeat a stack where
  flush flush := by
    cases a with
    | flush q => cases plain
    | _ => cases flush
  pass i pass := by
    rw [not_isPass_of_isPlain plain] at pass
    cases pass

theorem LoopSeat.of_job (job : Job H) {ran : Nat} {next : Nat → Program H}
    {keep : Option Keep} : LoopSeat job.activity (.checkpoint ran next keep :: stack) where
  flush _ := ⟨ran, next, keep, stack, rfl⟩
  pass i pass := by
    rw [job.isPass_activity] at pass
    cases pass

theorem EffectsSeat.of_plain (plain : a.isEffects = false) : EffectsSeat a stack := by
  intro effects
  rw [plain] at effects
  cases effects

end Activity

namespace World

variable {w w' v : World H}

/-- When something is being done, a move is a step of it or leaves the stack alone. -/
theorem Next.step_or_keeps (move : Next w w') (busy : w.stack ≠ []) :
    w.step? = some w' ∨ w'.stack = w.stack ∧ w'.microtasks = w.microtasks := by
  cases move with
  | step step => exact .inl step
  | create e => exact .inr ⟨rfl, rfl⟩
  | drop i => exact .inr ⟨rfl, rfl⟩
  | call p rest => exact absurd rest busy

theorem suffix_of_eq {lower : List (Activity H)} (stack : w.stack = lower) : lower <:+ w.stack :=
  stack ▸ List.suffix_refl _

/-- What is on top of a stack stands on the rest. -/
theorem above_append (above : List (Activity H)) {lower : List (Activity H)} {a : Activity H}
    (stack : w.stack = above ++ a :: lower) : Above lower w := by
  refine ⟨stack ▸ (List.suffix_cons _ _).trans (List.suffix_append _ _), fun same => ?_⟩
  have lengths := congrArg List.length (same.trans stack)
  rw [List.length_append, List.length_cons] at lengths
  omega

/-! ## Seats on the loop -/

/-- Changes put nothing on the stack that the event loop has started. -/
theorem exists_plain_of_changes (changes : Changes w w') :
    ∃ new, w'.stack = new ++ w.stack ∧ ∀ a ∈ new, a.isPlain = true := by
  induction changes with
  | refl => exact ⟨[], rfl, List.forall_mem_nil _⟩
  | @tail u v _ change ih =>
    obtain ⟨new, stack, plain⟩ := ih
    have same (kept : v.stack = u.stack) :
        ∃ new, v.stack = new ++ w.stack ∧ ∀ a ∈ new, a.isPlain = true :=
      ⟨new, kept.trans stack, plain⟩
    cases change with
    | modify i change keeps => exact same rfl
    | create e => exact same rfl
    | tell notices host => exact same rfl
    | start a isPlain =>
      exact ⟨a :: new, congrArg (a :: ·) stack, List.forall_mem_cons.mpr ⟨isPlain, plain⟩⟩
    | queue runner p => exact same (kept_queue _ _ _).stack
    | update i => exact same (kept_update _ _).stack
    | pushEffects i => exact same (kept_pushEffects _ _).stack
    | pushCustom k p => exact same (kept_pushCustom _ _ _).stack

/-- What a step puts onto the stack. -/
inductive Stacked (w w' : World H) : Prop
  /-- Activities that are neither flushes nor passes, on top of what was there. -/
  | plain {new rest : List (Activity H)} (left : w'.stack = new ++ rest)
    (plain : ∀ a ∈ new, a.isPlain = true) (older : rest <:+ w.stack)
  | microtask {ran : Nat} {next : Nat → Program H} {keep : Option Keep}
    {stack : List (Activity H)} {job : Job H} {microtasks : List (Job H)}
    (top : w.stack = .checkpoint ran next keep :: stack) (first : w.microtasks = job :: microtasks)
    (left : w'.stack = job.activity :: .checkpoint (ran + 1) next keep :: stack)
  | task {a : Activity H} {next : Nat → Program H} {keep : Option Keep}
    {stack : List (Activity H)} {job : Job H} (top : w.stack = a :: stack)
    (first : w.tasks = job :: w'.tasks)
    (left : w'.stack = job.activity :: .checkpoint 0 next keep :: stack)
  | pass {i : Nat} {x : Instance H} {renders : RunQueue Nat} {stack : List (Activity H)}
    (top : w.stack = .flush .renders :: stack) (pick : w.renders.pick = some (i, renders))
    (found : w.instances[i]? = some x) (here : x.connected = true)
    (left : w'.stack =
      .render i x.element.render (x.element.computed x.state) 0 .pass :: w.stack)
  /-- A pass that is being made goes on. -/
  | resumes {i cursor cursor' : Nat} {rest rest' : Render H} {computed : Keyed Json}
    {new stack : List (Activity H)} (top : w.stack = .render i rest computed cursor .pass :: stack)
    (left : w'.stack = new ++ .render i rest' computed cursor' .pass :: stack)
    (plain : ∀ a ∈ new, a.isPlain = true)

theorem stacked_of_changes (changes : Changes v w') (older : v.stack <:+ w.stack) :
    Stacked w w' := by
  obtain ⟨new, left, plain⟩ := exists_plain_of_changes changes
  exact .plain left plain older

theorem stacked_of_stepped (stepped : Stepped w w') : Stacked w w' := by
  have under {a : Activity H} {stack : List (Activity H)} (top : w.stack = a :: stack) :
      stack <:+ w.stack := top ▸ List.suffix_cons a stack
  have still {stack : List (Activity H)} (left : w'.stack = [] ++ stack)
      (older : stack <:+ w.stack) : Stacked w w' := .plain left (List.forall_mem_nil _) older
  cases stepped with
  | plain top isPlain changes => exact stacked_of_changes changes (under top)
  | microtask top first => exact .microtask top first rfl
  | task top isPlain first => exact .task top first rfl
  | emptyRenders top empty => exact still rfl (under top)
  | emptyLayout top empty => exact still rfl (under top)
  | emptyPassive top empty => exact still rfl (under top)
  | emptyCustom top empty => exact still rfl (under top)
  | skip top pick found gone => exact still rfl (List.suffix_refl _)
  | pass top pick found here => exact .pass top pick found here rfl
  | layout top pick changes => exact stacked_of_changes changes (List.suffix_refl _)
  | passive top pick changes => exact stacked_of_changes changes (List.suffix_refl _)
  | custom top found pick changes => exact stacked_of_changes changes (List.suffix_refl _)
  | render top changes =>
    obtain ⟨new, left, plain⟩ := exists_plain_of_changes changes
    exact .resumes top left plain
  | finish top changes =>
    obtain ⟨new, left, plain⟩ := exists_plain_of_changes changes
    exact .plain ((kept_pushEffects _ _).stack.trans left) plain (under top)

/-- What the event loop has started stands where it may. -/
abbrev LoopSeated (w : World H) : Prop := Activity.Seated Activity.LoopSeat w.stack

theorem loopSeated_of_stacked (seated : w.LoopSeated) (stacked : Stacked w w') :
    w'.LoopSeated := by
  rw [LoopSeated] at seated
  cases stacked with
  | plain left plain older =>
    rw [LoopSeated, left]
    exact (seated.suffix older).append fun a mem _ => .of_plain (plain a mem)
  | microtask top first left =>
    rw [top] at seated
    rw [LoopSeated, left]
    exact ⟨.of_job _, .of_plain rfl, seated.2⟩
  | task top first left =>
    rw [top] at seated
    rw [LoopSeated, left]
    exact ⟨.of_job _, .of_plain rfl, seated.2⟩
  | pass top pick found here left =>
    rw [LoopSeated, left]
    exact ⟨⟨fun flush => (nomatch flush), fun i _ => ⟨_, top⟩⟩, seated⟩
  | @resumes i cursor cursor' rest rest' computed new stack top left plain =>
    rw [top] at seated
    rw [LoopSeated, left]
    have resumed : Activity.Seated Activity.LoopSeat
        (.render i rest' computed cursor' .pass :: stack) :=
      ⟨⟨fun flush => (nomatch flush), seated.1.pass⟩, seated.2⟩
    exact resumed.append fun a mem _ => .of_plain (plain a mem)

theorem Reachable.loopSeated (reached : Reachable w) : w.LoopSeated := by
  induction reached with
  | fresh => trivial
  | next reached next ih =>
    cases next with
    | step step =>
      exact loopSeated_of_stacked ih (stacked_of_stepped (stepped reached.known step))
    | create e => exact ih
    | drop i => exact ih
    | call p rest => exact ⟨.of_plain rfl, ih⟩

/-! ## Seats of effects -/

abbrev EffectsSeated (w : World H) : Prop := Activity.Seated Activity.EffectsSeat w.stack

theorem effectsSeated_of_handled (seated : w.EffectsSeated) (handled : Handled w w') :
    w'.EffectsSeated := by
  have popped {a : Activity H} {stack : List (Activity H)} (top : w.stack = a :: stack) :
      Activity.Seated Activity.EffectsSeat stack :=
    (top ▸ seated : Activity.Seated _ (a :: stack)).2
  unfold EffectsSeated
  cases handled with
  | ends top left ties =>
    rw [left]
    exact popped top
  | resumes top left heir ties =>
    rw [left]
    exact ⟨.of_plain heir.effects, popped top⟩
  | calls top left heir called ties =>
    rw [left]
    exact ⟨.of_plain called.effects, .of_plain heir.effects, popped top⟩
  | flushes top left here ties =>
    rw [left]
    exact ⟨fun _ => ⟨_, _, top⟩, seated⟩
  | @turns i slot effect rest stack _ top left ties =>
    rw [left]
    have before : Activity.Seated Activity.EffectsSeat
        (.effects i ((slot, effect) :: rest) :: stack) := top ▸ seated
    have flush : Activity.Seated Activity.EffectsSeat (.effects i rest :: stack) :=
      ⟨before.1, before.2⟩
    have started : Activity.Seated Activity.EffectsSeat
        (.program effect (some (.cleanup ⟨i, slot⟩)) :: .effects i rest :: stack) :=
      ⟨.of_plain rfl, flush⟩
    exact started.append fun a mem _ => .of_plain (not_isEffects_programs _ a mem)
  | handsBack top left ties =>
    rw [left]
    exact popped top
  | connects top left ties =>
    rw [left]
    exact ⟨.of_plain rfl, popped top⟩
  | @detaches i x next keep stack _ top held here left ties =>
    rw [left]
    have goes_on : Activity.Seated Activity.EffectsSeat (.program next keep :: stack) :=
      ⟨.of_plain rfl, popped top⟩
    exact goes_on.append fun a mem _ => .of_plain (not_isEffects_programs _ a mem)

theorem Reachable.effectsSeated (reached : Reachable w) : w.EffectsSeated := by
  induction reached with
  | fresh => trivial
  | next _ next ih =>
    cases next with
    | step step => exact effectsSeated_of_handled ih (handled step)
    | create e => exact ih
    | drop i => exact ih
    | call p rest => exact ⟨.of_plain rfl, ih⟩

/-! ## Runs that the host drives -/

/-- Only the bottom of the stack drives the event loop. -/
def HostDriven (w : World H) : Prop := ∀ a ∈ w.stack.dropLast, a.isCheckpoint = false

instance (w : World H) : Decidable w.HostDriven :=
  inferInstanceAs (Decidable (∀ a ∈ w.stack.dropLast, a.isCheckpoint = false))

/-- A run that starts with nothing on the stack and in which no callback drives the event loop. -/
structure HostRun (ws : Nat → World H) (n : Nat) : Prop where
  run : Run ws n
  rest : (ws 0).stack = []
  driven : ∀ k ≤ n, (ws k).HostDriven

section Driven

variable {q : QueueId} {i : Nat} {a : Activity H} {below : List (Activity H)}

theorem HostDriven.checkpoint_below (driven : w.HostDriven) {ran : Nat} {next : Nat → Program H}
    {keep : Option Keep} (suffix : .checkpoint ran next keep :: below <:+ w.stack) :
    below = [] := by
  refine Classical.byContradiction fun some_below => ?_
  obtain ⟨above, stack⟩ := suffix
  have mem : .checkpoint ran next keep ∈ w.stack.dropLast := by
    rw [← stack, List.dropLast_append_of_ne_nil (List.cons_ne_nil _ _),
      List.dropLast_cons_of_ne_nil some_below]
    exact List.mem_append_right _ List.mem_cons_self
  cases driven _ mem

theorem HostDriven.flush_below (driven : w.HostDriven) (reached : Reachable w)
    (suffix : .flush q :: below <:+ w.stack) :
    ∃ ran next, below = [.checkpoint ran next none] := by
  have seated := reached.loopSeated.suffix suffix
  obtain ⟨ran, next, keep, rest, rfl⟩ := seated.1.flush rfl
  have under := (List.suffix_cons _ _).trans suffix
  obtain rfl := driven.checkpoint_below under
  cases keep with
  | none => exact ⟨ran, next, rfl⟩
  | some kept =>
    -- what keeps something stands on something, and nothing is left here
    exact absurd rfl ((reached.footed.suffix under).1.stands (Option.some_ne_none kept))

theorem HostDriven.pass_below (driven : w.HostDriven) (reached : Reachable w)
    (isPass : a.isPass i = true) (suffix : a :: below <:+ w.stack) :
    ∃ ran next, below = [.flush .renders, .checkpoint ran next none] := by
  obtain ⟨rest, rfl⟩ := (reached.loopSeated.suffix suffix).1.pass i isPass
  obtain ⟨ran, next, rfl⟩ := driven.flush_below reached ((List.suffix_cons _ _).trans suffix)
  exact ⟨ran, next, rfl⟩

theorem HostDriven.effects_below (driven : w.HostDriven) (reached : Reachable w)
    {rest : List (Nat × Program H)} (suffix : .effects i rest :: below <:+ w.stack) :
    ∃ q ran next, below = [.flush q, .checkpoint ran next none] := by
  obtain ⟨q, stack, rfl⟩ := (reached.effectsSeated.suffix suffix).1 rfl
  obtain ⟨ran, next, rfl⟩ := driven.flush_below reached ((List.suffix_cons _ _).trans suffix)
  exact ⟨q, ran, next, rfl⟩

/-- Nothing that keeps its undoing runs below another. -/
theorem HostDriven.keepers_below (driven : w.HostDriven) (reached : Reachable w)
    {key : CleanupSlot} (keep : a.keep? = some key) (suffix : a :: below <:+ w.stack) :
    keepers below = [] := by
  obtain ⟨rest, stack, rfl⟩ := (reached.footed.suffix suffix).1.keeps key keep
  obtain ⟨q, ran, next, rfl⟩ :=
    driven.effects_below reached ((List.suffix_cons _ _).trans suffix)
  rfl

theorem nodup_keepers {stack : List (Activity H)}
    (once : ∀ a below key, a :: below <:+ stack → a.keep? = some key → keepers below = []) :
    (keepers stack).Nodup := by
  induction stack with
  | nil => exact List.nodup_nil
  | cons a stack ih =>
    rw [keepers, List.filterMap_cons]
    split
    · exact ih fun b below key suffix =>
        once b below key (suffix.trans (List.suffix_cons _ _))
    · next key keep =>
      have none_left := once a stack key (List.suffix_refl _) keep
      rw [keepers] at none_left
      rw [none_left]
      exact List.pairwise_singleton _ key

theorem HostDriven.unnested (driven : w.HostDriven) (reached : Reachable w) (i : Nat) :
    w.Unnested i :=
  (nodup_keepers fun _ _ _ suffix keep => driven.keepers_below reached keep suffix).filter _

end Driven

variable {ws : Nat → World H} {n k : Nat}

theorem HostRun.vacant (host : HostRun ws n) (le : k ≤ n) (i : Nat) : (ws k).Vacant i :=
  host.run.vacant host.rest le fun l lt =>
    have within := Nat.le_trans (Nat.le_of_lt lt) le
    (host.driven l within).unnested (host.run.reachable within) i

end World

end LiveMarkup
