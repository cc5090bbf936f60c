import LiveMarkup.Proofs.Live.Contents
import LiveMarkup.Proofs.Live.Seats

/-!
# Effects that wait

An effect that a render has put into its slot waits there until another render puts another one in
its place, or a flush takes all that wait of that kind. What a flush has taken it runs, one after
the other, so that all of it has been run when the flush goes on with the next element.
-/

namespace LiveMarkup

variable {H : Type}

namespace Contents

variable {c : Contents H} {kind other : EffectKind} {slot slot' : Nat} {effect : Program H}

theorem effects_withEffects {effects : Places (Program H)} :
    (c.withEffects kind effects).effects other =
      if kind = other then effects else c.effects other := by
  cases kind with
  | _ =>
    cases other with
    | _ => rfl

/-- The effect that is put into a slot waits there, and the others are left alone. -/
theorem get?_effects_queue :
    Places.get? ((c.queue slot (some (kind, effect))).effects other) slot' =
      if kind = other ∧ slot = slot' then some effect else Places.get? (c.effects other) slot' := by
  rw [queue, effects_withEffects]
  by_cases same : kind = other
  · subst same
    simp only [if_pos, Places.get?_set, true_and]
  · rw [if_neg same, if_neg fun both => same both.1]

end Contents

namespace World

variable {w w' : World H} {kind : EffectKind} {i j slot n a d : Nat} {effect : Program H}
  {taken rest : List (Nat × Program H)} {below : List (Activity H)} {ws : Nat → World H}

/-! ## What becomes of an effect -/

/-- The effect of one kind that waits in a slot. -/
def effect? (w : World H) (kind : EffectKind) (i slot : Nat) : Option (Program H) :=
  (w.contents[i]?).bind fun c => Places.get? (c.effects kind) slot

/-- A flush hands over a connected element, and takes the effects of one kind that wait there. -/
inductive TakesEffects (kind : EffectKind) (i : Nat) (taken : List (Nat × Program H))
    (w w' : World H) : Prop
  | intro (hands : Hands (effectQueue kind) (.element i) w w') (here : w.isConnected i = true)
    (left : w'.stack = .effects i taken :: w.stack)

theorem effect?_modify {changed : Contents H → Contents H}
    (contents : w'.contents = w.contents.modify j changed) :
    w'.effect? kind i slot = (w.contents[i]?).bind fun c =>
      Places.get? ((if j = i then changed c else c).effects kind) slot := by
  rw [effect?, contents, List.getElem?_modify]
  cases w.contents[i]? with
  | none => rfl
  | some c =>
    simp only [Option.bind_some]
    split
    · rfl
    · rfl

/-- A change that leaves the effect alone. -/
theorem effect?_modify_keep {changed : Contents H → Contents H}
    (contents : w'.contents = w.contents.modify j changed)
    (keeps : j = i → ∀ c, Places.get? ((changed c).effects kind) slot =
      Places.get? (c.effects kind) slot) : w'.effect? kind i slot = w.effect? kind i slot := by
  rw [effect?_modify contents, effect?]
  refine congrArg _ (funext fun c => ?_)
  split
  · next same => exact keeps same c
  · rfl

theorem QueuesEffect.effect?_eq (queues : QueuesEffect kind i slot effect w w') :
    w'.effect? kind i slot = some effect := by
  have contents := queues.contents_eq
  obtain ⟨top, found, queues, step⟩ := queues
  rw [effect?_modify contents, contents_of_found found, Option.bind_some, if_pos rfl,
    Contents.get?_effects_queue, if_pos ⟨rfl, rfl⟩]

theorem Hands.exists_startEffects (hands : Hands (effectQueue kind) (.element i) w w') :
    ∃ v : World H, w' = v.startEffects kind i ∧ v.instances = w.instances := by
  obtain ⟨top, found, pick, step⟩ := hands
  simp only [step?, top, Option.some.injEq] at step
  cases kind with
  | _ =>
    obtain rfl := Option.some.inj found
    rw [RunQueue.pick_map] at pick
    obtain ⟨⟨j, queue⟩, picked, eq⟩ := Option.map_eq_some_iff.mp pick
    cases eq
    simp only [effectQueue, stepFlush, picked] at step
    exact ⟨_, step.symm, rfl⟩

/-- When a connected element is handed over no effect is left waiting. -/
theorem Hands.effect?_eq_none (kind : EffectKind)
    (hands : Hands (effectQueue kind) (.element i) w w') (here : w.isConnected i = true) :
    w'.effect? kind i slot = none := by
  obtain ⟨v, rfl, instances⟩ := hands.exists_startEffects
  obtain ⟨x, found, connected⟩ : ∃ x, w.instances[i]? = some x ∧ x.connected = true := by
    simpa [isConnected, Option.any_eq_true] using here
  have there : v.instances[i]? = some x := instances ▸ found
  rw [effect?_modify (contents_startEffects _ there connected).1, contents_of_found there,
    Option.bind_some, if_pos rfl, Contents.effects_withEffects, if_pos rfl]
  rfl

/-- An effect that waits still does so behind a move, unless another one is put in its place or a
flush takes it. -/
theorem effect?_next (next : Next w w') (waits : w.effect? kind i slot = some effect) :
    w'.effect? kind i slot = some effect ∨ (∃ other, QueuesEffect kind i slot other w w') ∨
      ∃ taken, TakesEffects kind i taken w w' ∧ (slot, effect) ∈ taken := by
  have kept (same : w'.effect? kind i slot = w.effect? kind i slot) :
      w'.effect? kind i slot = some effect ∨ (∃ other, QueuesEffect kind i slot other w w') ∨
        ∃ taken, TakesEffects kind i taken w w' ∧ (slot, effect) ∈ taken := .inl (same.trans waits)
  cases altered next with
  | keeps same => exact kept (by rw [effect?, effect?, same])
  | writes stores =>
    exact kept (effect?_modify_keep stores.contents_eq fun _ c => by rw [Contents.effects_put])
  | @queues kind' j slot' other queues =>
    by_cases here : j = i ∧ kind' = kind ∧ slot' = slot
    · obtain ⟨rfl, rfl, rfl⟩ := here
      exact .inr (.inl ⟨other, queues⟩)
    · refine kept (effect?_modify_keep queues.contents_eq fun same c => ?_)
      rw [Contents.get?_effects_queue, if_neg fun both => here ⟨same, both⟩]
  | fills top held contents =>
    refine kept (effect?_modify_keep contents fun _ c => ?_)
    cases kind with
    | _ => rfl
  | @takes j kind' x hands found here left contents =>
    by_cases same : j = i ∧ kind' = kind
    · obtain ⟨rfl, rfl⟩ := same
      rw [effect?, contents_of_found found, Option.bind_some] at waits
      have entry := Places.mem_entriesFrom (j := 0) waits
      rw [Nat.zero_add] at entry
      exact .inr (.inr ⟨_, ⟨hands, by simp [isConnected, found, here], left⟩, entry⟩)
    · refine kept (effect?_modify_keep contents fun own c => ?_)
      rw [Contents.effects_withEffects, if_neg fun eq => same ⟨own, eq⟩]
  | creates created =>
    obtain ⟨c, there, waits⟩ := Option.bind_eq_some_iff.mp waits
    exact .inl (Option.bind_eq_some_iff.mpr ⟨c, created ▸ contents_create there, waits⟩)

/-- An effect waits on, or another one is put in its place, or it is taken. -/
theorem Run.waits_or_leaves (run : Run ws n) (le : a ≤ d) (within : d ≤ n)
    (waits : (ws a).effect? kind i slot = some effect) :
    (∀ l, a ≤ l → l ≤ d → (ws l).effect? kind i slot = some effect) ∨
      ∃ g, a ≤ g ∧ g < d ∧ (∀ l, a ≤ l → l ≤ g → (ws l).effect? kind i slot = some effect) ∧
        ((∃ other, QueuesEffect kind i slot other (ws g) (ws (g + 1))) ∨
          ∃ taken, TakesEffects kind i taken (ws g) (ws (g + 1)) ∧ (slot, effect) ∈ taken) := by
  induction le with
  | refl => exact .inl fun l lower upper => Nat.le_antisymm upper lower ▸ waits
  | @step d le ih =>
    rcases ih (Nat.le_of_succ_le within) with still | ⟨g, after, before, until_then, leaves⟩
    · rcases effect?_next (run.next d within) (still d le (Nat.le_refl d)) with here | leaves
      · refine .inl fun l lower upper => ?_
        rcases Nat.le_succ_iff.mp upper with earlier | rfl
        · exact still l lower earlier
        · exact here
      · exact .inr ⟨d, le, Nat.lt_succ_self d, still, leaves⟩
    · exact .inr ⟨g, after, Nat.lt_succ_of_lt before, until_then, leaves⟩

/-! ## Effects that are run -/

variable {b e k : Nat} {lower stack : List (Activity H)} {top : Activity H}

theorem Above.length_lt (above : Above lower w) : lower.length < w.stack.length :=
  Nat.lt_of_le_of_ne above.1.length_le fun same => above.2 (above.1.eq_of_length same)

/-- What stands on `lower` comes down to it. -/
theorem Run.comes_down (run : Run ws n) (lower : List (Activity H)) (le : k ≤ e) (within : e ≤ n)
    (stands : lower <:+ (ws k).stack) (down : (ws e).stack.length ≤ lower.length) :
    ∃ b, k ≤ b ∧ b ≤ e ∧ (ws b).stack = lower ∧ ∀ l, k ≤ l → l < b → Above lower (ws l) := by
  by_cases same : lower = (ws k).stack
  · exact ⟨k, Nat.le_refl k, le, same.symm,
      fun l lower upper => absurd lower (Nat.not_le_of_lt upper)⟩
  · rcases run.above_or_down le within ⟨stands, same⟩ with still | ⟨b, after, before, down, above⟩
    · exact absurd (still e le (Nat.le_refl e)).length_lt (Nat.not_lt_of_le down)
    · exact ⟨b, Nat.le_of_lt after, before, down, above⟩

/-- What is on top of the stack goes on by a step. -/
theorem Run.exists_step (run : Run ws n) (le : k ≤ e) (within : e ≤ n)
    (stack_k : (ws k).stack = top :: stack) (left : (ws e).stack ≠ top :: stack) :
    ∃ j, k ≤ j ∧ j < e ∧ (ws j).stack = top :: stack ∧ (ws j).step? = some (ws (j + 1)) := by
  induction le with
  | refl => exact absurd stack_k left
  | @step e le ih =>
    by_cases still : (ws e).stack = top :: stack
    · refine ⟨e, le, Nat.lt_succ_self e, still, ?_⟩
      exact ((run.next e within).step_or_keeps (still ▸ List.cons_ne_nil _ _)).resolve_right
        fun keeps => left (keeps.1.trans still)
    · obtain ⟨j, after, before, same, step⟩ := ih (Nat.le_of_succ_le within) still
      exact ⟨j, after, Nat.lt_succ_of_lt before, same, step⟩

/-- An effect starts at `b` and is over at `e`, where the flush goes on that stands on `below`. -/
inductive RunsEffect (ws : Nat → World H) (i slot : Nat) (effect : Program H)
    (below : List (Activity H)) (b e : Nat) : Prop
  | intro {rest : List (Nat × Program H)} (starts : StartsEffect ws i slot effect below b)
    (lt : b < e) (working : ∀ l, b ≤ l → l < e → Above (.effects i rest :: below) (ws l))
    (ends : (ws e).stack = .effects i rest :: below)

/-- All effects that a flush has taken are run until the flush is over. -/
theorem Run.runs_taken (run : Run ws n) (le : k ≤ e) (within : e ≤ n)
    (stack_k : (ws k).stack = .effects i taken :: below) (down : (ws e).stack = below) :
    ∀ entry ∈ taken, ∃ b f, k < b ∧ f ≤ e ∧ RunsEffect ws i entry.1 entry.2 below b f := by
  induction taken generalizing k with
  | nil => exact fun entry mem => (List.not_mem_nil mem).elim
  | cons first rest ih =>
    obtain ⟨slot, effect⟩ := first
    have left : (ws e).stack ≠ .effects i ((slot, effect) :: rest) :: below := by
      rw [down]
      exact fun same => absurd (congrArg List.length same) (Nat.ne_of_lt (Nat.lt_succ_self _))
    obtain ⟨j, after, before, turned, step⟩ := run.exists_step le within stack_k left
    -- first the cleanup is run, and then the effect
    obtain ⟨b, from_j, to_e, starts, cleaning⟩ := run.comes_down
      (.program effect (some (.cleanup ⟨i, slot⟩)) :: .effects i rest :: below) (k := j + 1) before
      within
      ((step_turn turned step).1 ▸ List.suffix_append _ _)
      (by rw [down]; exact Nat.le_succ_of_le (Nat.le_succ _))
    obtain ⟨f, from_b, f_le, ends, working⟩ := run.comes_down
      (.effects i rest :: below) to_e within (starts ▸ List.suffix_cons _ _)
      (by rw [down]; exact Nat.le_succ _)
    have lt : b < f := by
      refine Nat.lt_of_le_of_ne from_b ?_
      rintro rfl
      exact absurd (congrArg List.length (starts.symm.trans ends)) (Nat.succ_ne_self _)
    have later : k < b := Nat.lt_of_le_of_lt after from_j
    intro entry mem
    rcases List.mem_cons.mp mem with rfl | mem
    · exact ⟨b, f, later, f_le, ⟨from_j, turned, cleaning, starts⟩, lt, working, ends⟩
    · obtain ⟨b', f', after', before', runs⟩ := ih f_le ends entry mem
      exact ⟨b', f', Nat.lt_trans later (Nat.lt_trans lt after'), before', runs⟩

end World

end LiveMarkup
